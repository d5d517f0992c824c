import KushOs.Idl.Grammar
import Mathlib.Data.List.TakeWhile

/-!
# The canonical layout of interface descriptions

What an interface declares, as data that is valid by construction, and its text in the layout of
the sample file: one include, one method to a line, decorators in brackets between the name and the
parameters.

## Main definitions

* `MethodSpec`, `InterfaceSpec`: declared methods and interfaces.
* `printFile`: the text of a file.
* `InterfaceSpec.description`: the description that it stands for.
-/

namespace KushOs.Idl

open Grammar

/-! ## Names and literals -/

/-- An identifier. -/
structure Identifier where
  text : String
  first : Char
  others : List Char
  toList_text : text.toList = first :: others
  isFirst : isIdentifierFirst first = true
  isOther : ∀ c ∈ others, isIdentifierOther c = true

/-- What may follow the first character of the name of a type. -/
inductive TypeTail : List Char → Prop
  | nil : TypeTail []
  | other {c : Char} {l : List Char} : isIdentifierOther c = true → TypeTail l → TypeTail (c :: l)
  | colons {l : List Char} : TypeTail l → TypeTail (':' :: ':' :: l)

/-- The name of a type: an identifier, possibly with namespaces. -/
structure TypeName where
  text : String
  first : Char
  others : List Char
  toList_text : text.toList = first :: others
  isFirst : isIdentifierFirst first = true
  isTail : TypeTail others

/-- The value of a decorator. -/
structure DecoratorValue where
  text : String
  nonempty : text ≠ ""
  isOther : ∀ c ∈ text.toList, isIdentifierOther c = true

/-- The path of an include. -/
structure IncludePath where
  text : String
  isPath : ∀ c ∈ text.toList, isPathChar c = true

/-- An integer literal: hexadecimal, octal or decimal, by its prefix. -/
def IsLiteral : List Char → Prop
  | '0' :: 'x' :: digits => digits ≠ [] ∧ ∀ c ∈ digits, digitValue c < 16
  | '0' :: 'X' :: digits => digits ≠ [] ∧ ∀ c ∈ digits, digitValue c < 16
  | '0' :: digits => ∀ c ∈ digits, digitValue c < 8
  | digits => digits ≠ [] ∧ ∀ c ∈ digits, digitValue c < 10

/-- The number that a literal stands for. -/
def literalValue : List Char → ℕ
  | '0' :: 'x' :: digits => valueOf 16 digits
  | '0' :: 'X' :: digits => valueOf 16 digits
  | '0' :: digits => valueOf 8 digits
  | digits => valueOf 10 digits

/-! ## Declarations -/

/-- A declared parameter or return value. -/
structure ArgSpec where
  name : Identifier
  typeName : TypeName

/-- A declared method; an asynchronous one has no return values. -/
structure MethodSpec where
  name : Identifier
  name_ne : name.first ≠ '_'
  decorators : List (Identifier × DecoratorValue)
  keys_nodup : (decorators.map fun d => d.1.text).Nodup
  /-- The decorator `identifier`, if there is one, is an integer of 64 bits. -/
  identifier_literal : ∀ d ∈ decorators, d.1.text = "identifier" →
    IsLiteral d.2.text.toList ∧ literalValue d.2.text.toList < 2 ^ 64
  params : List ArgSpec
  /-- The return values; `none` for an asynchronous method. -/
  returns : Option (List ArgSpec)

/-- A declared interface. -/
structure InterfaceSpec where
  name : Identifier
  methods : List MethodSpec
  names_nodup : (methods.map fun m => m.name.text).Nodup

/-! ## Printing -/

/-- `name: Type` -/
def ArgSpec.print (a : ArgSpec) : List Char :=
  a.name.text.toList ++ [':', ' '] ++ a.typeName.text.toList

/-- Arguments, separated by commas. -/
def printArgs : List ArgSpec → List Char
  | [] => []
  | a :: args => a.print ++ args.flatMap fun a => [',', ' '] ++ a.print

/-- `[key=value]` and a space. -/
def printDecorator (d : Identifier × DecoratorValue) : List Char :=
  ['['] ++ d.1.text.toList ++ ['='] ++ d.2.text.toList ++ [']', ' ']

/-- The decorators of a method, set off from its name. -/
def printDecorators : List (Identifier × DecoratorValue) → List Char
  | [] => []
  | d :: decorators => ' ' :: (d :: decorators).flatMap printDecorator

/-- `=|` for an asynchronous method, or `=>` and the return values. -/
def printReturns : Option (List ArgSpec) → List Char
  | none => ['=', '|']
  | some returns => ['=', '>', ' ', '('] ++ printArgs returns ++ [')']

/-- A method, without the indentation. -/
def MethodSpec.print (m : MethodSpec) : List Char :=
  m.name.text.toList ++ printDecorators m.decorators ++ ['('] ++ printArgs m.params ++ [')', ' '] ++
    printReturns m.returns

/-- A method in a line of its own. -/
def MethodSpec.printLine (m : MethodSpec) : List Char := [' ', ' ', ' ', ' '] ++ m.print ++ ['\n']

/-- An interface, with one method to a line. -/
def InterfaceSpec.print (i : InterfaceSpec) : List Char :=
  "interface ".toList ++ i.name.text.toList ++ [' ', '{', '\n'] ++
    i.methods.flatMap MethodSpec.printLine ++ ['}', '\n']

/-- An include. -/
def IncludePath.print (p : IncludePath) : List Char :=
  "#include <".toList ++ p.text.toList ++ ['>', '\n']

/-- A file: the includes, then the interfaces. -/
def printFile (includes : List IncludePath) (interfaces : List InterfaceSpec) : List Char :=
  includes.flatMap IncludePath.print ++ interfaces.flatMap InterfaceSpec.print

/-! ## What the declarations stand for -/

/-- The argument that is declared. -/
def ArgSpec.argument (a : ArgSpec) : Argument := .ofNames a.name.text a.typeName.text

namespace MethodSpec

variable (m : MethodSpec)

/-- The parameters and the return values. -/
def arguments : List Argument := (m.params ++ m.returns.getD []).map ArgSpec.argument

/-- The decorators as pairs of strings. -/
def decoratorTexts : List (String × String) := m.decorators.map fun d => (d.1.text, d.2.text)

/-- The number of the decorator `identifier`, or the hash of the name. -/
def identifier : UInt64 :=
  match m.decoratorTexts.lookup "identifier" with
  | some value => UInt64.ofNat (literalValue value.toList)
  | none => nameHash m.name.text

/-- The method that is declared. -/
def method : Method where
  name := m.name.text
  async := m.returns.isNone
  identifier := m.identifier
  params := m.params.map ArgSpec.argument
  returns := (m.returns.getD []).map ArgSpec.argument

end MethodSpec

/-- The number of arguments whose type is not built in. -/
def customTypes (args : List Argument) : ℕ := args.countP fun a => !a.type.isBuiltin

/-- The description of a declared interface in a file with the given includes. -/
def InterfaceSpec.description (filename : String) (includes : List IncludePath)
    (i : InterfaceSpec) : InterfaceDescription where
  filename
  name := i.name.text
  methods := i.methods.map MethodSpec.method
  includes := includes.map IncludePath.text
  identifier := murmurHash64A (bytesOf i.name.text) kInterfaceNameHashSeed
  numCustomTypes := customTypes (i.methods.flatMap MethodSpec.arguments)

/-! ## Literals in `stoull` -/

/-- Digits up to the end of the text are all taken. -/
theorem takeWhile_digits {base : ℕ} {digits : List Char} (h : ∀ c ∈ digits, digitValue c < base) :
    digits.takeWhile (digitValue · < base) = digits :=
  List.takeWhile_eq_self_iff.mpr fun c hc => decide_eq_true (h c hc)

/-- A leading zero does not change the value of digits. -/
theorem valueOf_zero_cons (base : ℕ) (digits : List Char) :
    valueOf base ('0' :: digits) = valueOf base digits := by
  have hzero : base * 0 + digitValue '0' = 0 := by
    rw [Nat.mul_zero, Nat.zero_add]
    decide
  rw [valueOf, List.foldl_cons, hzero]
  rfl

/-- A hexadecimal prefix in front of at least one digit. -/
theorem splitBase_hex {x : Char} {digits : List Char} (hx : x = 'x' ∨ x = 'X')
    (hne : digits ≠ []) (hdigits : ∀ c ∈ digits, digitValue c < 16) :
    splitBase ('0' :: x :: digits) = (16, digits) := by
  have hhead : digits.head?.any (digitValue · < 16) = true := by
    obtain ⟨c, rest, rfl⟩ := List.exists_cons_of_ne_nil hne
    exact decide_eq_true (hdigits c List.mem_cons_self)
  rw [splitBase, if_pos ⟨hx, hhead⟩]

/-- A leading zero in front of octal digits. -/
theorem splitBase_octal {digits : List Char} (hdigits : ∀ c ∈ digits, digitValue c < 8) :
    splitBase ('0' :: digits) = (8, '0' :: digits) := by
  cases digits with
  | nil => rfl
  | cons x rest =>
      have hx : ¬((x = 'x' ∨ x = 'X') ∧ rest.head?.any (digitValue · < 16) = true) := by
        rintro ⟨rfl | rfl, -⟩
        · exact absurd (hdigits 'x' List.mem_cons_self) (by decide)
        · exact absurd (hdigits 'X' List.mem_cons_self) (by decide)
      rw [splitBase, if_neg hx]

/-- `splitBase` finds the base of a literal, and everything behind the prefix is a digit. -/
theorem splitBase_of_isLiteral {text : List Char} (h : IsLiteral text) :
    ∃ base digits, splitBase text = (base, digits) ∧ digits ≠ [] ∧
      (∀ c ∈ digits, digitValue c < base) ∧ valueOf base digits = literalValue text := by
  unfold IsLiteral at h
  split at h
  · rename_i digits
    exact ⟨16, digits, splitBase_hex (.inl rfl) h.1 h.2, h.1, h.2, rfl⟩
  · rename_i digits
    exact ⟨16, digits, splitBase_hex (.inr rfl) h.1 h.2, h.1, h.2, rfl⟩
  · rename_i digits hx hX
    refine ⟨8, '0' :: digits, splitBase_octal h, by simp, ?_, ?_⟩
    · intro c hc
      rcases List.mem_cons.mp hc with rfl | hc
      · decide
      · exact h c hc
    · rw [valueOf_zero_cons]
      unfold literalValue
      split <;> simp_all
  · rename_i hx hX hzero
    refine ⟨10, text, ?_, h.1, h.2, ?_⟩
    · unfold splitBase
      split <;> simp_all
    · unfold literalValue
      split <;> simp_all

/-- `stoull` returns the number of a literal that fits 64 bits. -/
theorem stoull_of_isLiteral {value : String} (h : IsLiteral value.toList)
    (hlt : literalValue value.toList < 2 ^ 64) :
    stoull value = .ok (UInt64.ofNat (literalValue value.toList)) := by
  obtain ⟨base, digits, hsplit, hne, hdigits, hvalue⟩ := splitBase_of_isLiteral h
  unfold stoull
  rw [hsplit]
  dsimp only
  rw [takeWhile_digits hdigits, if_neg hne, hvalue, if_pos hlt]

end KushOs.Idl
