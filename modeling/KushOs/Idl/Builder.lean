import KushOs.Foundation.Fallible
import KushOs.Idl.Interface

/-!
# Building interface descriptions

`Builder` turns the actions of the grammar into interface descriptions. It keeps the interface and
the method that are being described, and the pieces of the next argument and the next decorator;
its methods check by assertions that they are called in an order that makes sense.

The identifier of a method is a hash of its name, unless the decorator `identifier` gives it.

## Main definitions

* `murmurHash64A`, `stoull`: the two sources of identifiers.
* `InterfaceDescription`: what a file describes.
* `Builder` and its methods, under the names of the source.
-/

namespace KushOs.Idl

/-! ## Hashing -/

namespace MurmurHash

/-- `m` -/
def m : UInt64 := 0xc6a4a7935bd1e995

/-- A word of the key, in little-endian order. -/
def word : List UInt8 → UInt64
  | [] => 0
  | b :: bytes => b.toUInt64 ||| word bytes <<< 8

/-- The loop over the whole words of the key; it leaves the remaining bytes. -/
def wordLoop : ℕ → List UInt8 → UInt64 → UInt64 × List UInt8
  | 0, data, h => (h, data)
  | n + 1, data, h =>
      let k := word (data.take 8) * m
      let k := (k ^^^ (k >>> 47)) * m
      wordLoop n (data.drop 8) ((h ^^^ k) * m)

/-- The `switch` over the remaining bytes, the last of which comes first. -/
def tail (data2 : List UInt8) (h : UInt64) : UInt64 :=
  if data2 = [] then h
  else data2.zipIdx.foldr (fun b h => h ^^^ b.1.toUInt64 <<< (8 * b.2).toUInt64) h * m

end MurmurHash

/-- `MurmurHash64A` -/
def murmurHash64A (key : List UInt8) (seed : UInt64) : UInt64 :=
  let h := seed ^^^ key.length.toUInt64 * MurmurHash.m
  let (h, data2) := MurmurHash.wordLoop (key.length / 8) key h
  let h := MurmurHash.tail data2 h
  let h := (h ^^^ (h >>> 47)) * MurmurHash.m
  h ^^^ (h >>> 47)

/-- The bytes of a string; the names that are hashed consist of ASCII characters. -/
def bytesOf (s : String) : List UInt8 := s.toList.map fun c => c.toNat.toUInt8

/-! ## Numbers in decorators -/

/-- The value of a digit; 36 for a character that is no digit in any base. -/
def digitValue (c : Char) : ℕ :=
  if '0' ≤ c ∧ c ≤ '9' then c.toNat - '0'.toNat
  else if 'a' ≤ c ∧ c ≤ 'z' then c.toNat - 'a'.toNat + 10
  else if 'A' ≤ c ∧ c ≤ 'Z' then c.toNat - 'A'.toNat + 10
  else 36

/-- The value of a sequence of digits. -/
def valueOf (base : ℕ) (digits : List Char) : ℕ :=
  digits.foldl (fun n c => base * n + digitValue c) 0

/-- The base that a prefix announces, and what follows the prefix. -/
def splitBase : List Char → ℕ × List Char
  | '0' :: x :: rest =>
      if (x = 'x' ∨ x = 'X') ∧ rest.head?.any (digitValue · < 16) then (16, rest)
      else (8, '0' :: x :: rest)
  | ['0'] => (8, ['0'])
  | text => (10, text)

/-- The ways in which a method of the builder does not return. -/
inductive BuildError
  /-- An `assert` fails. -/
  | assertion
  /-- A null pointer is dereferenced. -/
  | nullPointer
  /-- `std::runtime_error` -/
  | runtimeError (what : String)
  /-- `std::invalid_argument`, of `stoull` -/
  | invalidArgument
  /-- `std::out_of_range`, of `stoull` -/
  | outOfRange
  deriving DecidableEq, Repr

/-- `stoull(str, nullptr, 0)`: the longest number that the string starts with. The values of
decorators have no leading blanks or signs. -/
def stoull (str : String) : Except BuildError UInt64 :=
  let (base, text) := splitBase str.toList
  let digits := text.takeWhile (digitValue · < base)
  if digits = [] then .error .invalidArgument
  else if valueOf base digits < 2 ^ 64 then .ok (UInt64.ofNat (valueOf base digits))
  else .error .outOfRange

/-! ## Descriptions -/

/-- `kMethodNameHashSeed` -/
def kMethodNameHashSeed : UInt64 := 0xB64C6EF10B0E96F9

/-- `kInterfaceNameHashSeed` -/
def kInterfaceNameHashSeed : UInt64 := 0x9B06E367BED00BBB

/-- `isBuiltinType` -/
def ArgumentType.isBuiltin : ArgumentType → Bool
  | .primitive _ => true
  | .string => true
  | .blob => true
  | .custom _ => false

/-- The hash of a method's name. -/
def nameHash (name : String) : UInt64 := murmurHash64A (bytesOf name) kMethodNameHashSeed

/-- The constructor of `Method`; 0 stands for an identifier that is not given. -/
def Method.new (name : String) (identifier : UInt64 := 0) : Method where
  name
  async := false
  identifier := if identifier = 0 then nameHash name else identifier
  params := []
  returns := []

/-- `InterfaceDescription` -/
structure InterfaceDescription where
  filename : String
  name : String
  methods : List Method
  includes : List String
  identifier : UInt64
  numCustomTypes : ℕ
  deriving DecidableEq, Repr

namespace InterfaceDescription

/-- The constructor. -/
def new (name filename : String) : InterfaceDescription where
  filename
  name
  methods := []
  includes := []
  identifier := murmurHash64A (bytesOf name) kInterfaceNameHashSeed
  numCustomTypes := 0

/-- `hasCustomTypes` -/
def hasCustomTypes (i : InterfaceDescription) : Bool := i.numCustomTypes ≠ 0

/-- What the code generator works from. -/
def toInterface (i : InterfaceDescription) : Interface := { methods := i.methods }

end InterfaceDescription

/-! ## The builder -/

/-- `ArgContext` -/
inductive ArgContext
  | none
  | parameter
  | ret
  deriving DecidableEq, Repr

/-- `Builder` -/
structure Builder where
  filename : String
  current : Option InterfaceDescription := none
  allIds : List InterfaceDescription := []
  currentMethod : Option Method := none
  argContext : ArgContext := .none
  nextArgName : String := ""
  nextArgTypename : String := ""
  nextDecoratorKey : String := ""
  nextDecoratorValue : String := ""
  /-- The entries of the map, in the order in which they were added. -/
  decorators : List (String × String) := []
  includes : List String := []
  deriving DecidableEq, Repr

/-- `assert` -/
def assertThat (cond : Bool) : Except BuildError Unit :=
  if cond then .ok () else .error .assertion

namespace Builder

variable (b : Builder)

/-- `Builder::finalize` -/
def finalize : List InterfaceDescription :=
  b.allIds.map fun id => { id with includes := b.includes }

/-- `Builder::beginInterface` -/
def beginInterface (name : String) : Except BuildError Builder := do
  assertThat b.current.isNone
  return { b with current := some (InterfaceDescription.new name b.filename) }

/-- `Builder::endInterface` -/
def endInterface : Except BuildError Builder := do
  let some current := b.current | .error .assertion
  return { b with allIds := b.allIds ++ [current], current := none }

/-- `Builder::beginMethod` -/
def beginMethod (name : String) : Except BuildError Builder := do
  let some current := b.current | .error .assertion
  assertThat b.currentMethod.isNone
  if name.toList.head? = some '_' then
    .error (.runtimeError
      ("Method name '" ++ name ++ "' is not allowed; names may not start with underscores"))
  else if current.methods.any (·.name = name) then
    .error (.runtimeError ("Duplicate method: " ++ name))
  else return { b with currentMethod := some (Method.new name) }

/-- `Builder::setMethodAsync` -/
def setMethodAsync (isAsync : Bool) : Except BuildError Builder := do
  let some method := b.currentMethod | .error .assertion
  return { b with currentMethod := some { method with async := isAsync } }

/-- The identifier that `endMethod` gives to a method. -/
def decodeIdentifier (decorators : List (String × String)) (method : Method) :
    Except BuildError UInt64 :=
  match decorators.lookup "identifier" with
  | some value => stoull value
  | none => .ok method.identifier

/-- `Builder::endMethod` -/
def endMethod : Except BuildError Builder := do
  let some current := b.current | .error .assertion
  let some method := b.currentMethod | .error .assertion
  let identifier ← decodeIdentifier b.decorators method
  return { b with
    decorators := []
    current := some { current with methods := current.methods ++ [{ method with identifier }] }
    currentMethod := none }

/-- The two functions that open a group of arguments. -/
def beginArgs (context : ArgContext) : Except BuildError Builder := do
  assertThat b.current.isSome
  assertThat b.currentMethod.isSome
  assertThat (b.argContext = .none)
  return { b with argContext := context }

/-- The two functions that close a group of arguments. -/
def endArgs (context : ArgContext) : Except BuildError Builder := do
  assertThat b.current.isSome
  assertThat b.currentMethod.isSome
  assertThat (b.argContext = context)
  return { b with argContext := .none }

/-- `Builder::beginMethodParams` -/
def beginMethodParams : Except BuildError Builder := b.beginArgs .parameter

/-- `Builder::endMethodParams` -/
def endMethodParams : Except BuildError Builder := b.endArgs .parameter

/-- `Builder::beginMethodReturns` -/
def beginMethodReturns : Except BuildError Builder := b.beginArgs .ret

/-- `Builder::endMethodReturns` -/
def endMethodReturns : Except BuildError Builder := b.endArgs .ret

/-- `Builder::setNextArgName` -/
def setNextArgName (name : String) : Builder := { b with nextArgName := name }

/-- `Builder::setNextArgTypename` -/
def setNextArgTypename (name : String) : Builder := { b with nextArgTypename := name }

/-- The `switch` of `pushNextArg`. -/
def addArg (arg : Argument) (method : Method) : ArgContext → Method
  | .parameter => { method with params := method.params ++ [arg] }
  | .ret => { method with returns := method.returns ++ [arg] }
  | .none => method

/-- The count of custom types in `pushNextArg`. -/
def countType (arg : Argument) : Except BuildError (Option InterfaceDescription) :=
  if arg.type.isBuiltin then .ok b.current
  else
    match b.current with
    | some current => .ok (some { current with numCustomTypes := current.numCustomTypes + 1 })
    | none => .error .nullPointer

/-- `Builder::pushNextArg` -/
def pushNextArg : Except BuildError Builder := do
  let some method := b.currentMethod | .error .assertion
  assertThat (b.argContext ≠ .none)
  assertThat (b.nextArgName ≠ "")
  assertThat (b.nextArgTypename ≠ "")
  let arg := Argument.ofNames b.nextArgName b.nextArgTypename
  let current ← b.countType arg
  return { b with
    current
    currentMethod := some (addArg arg method b.argContext)
    nextArgName := ""
    nextArgTypename := "" }

/-- `Builder::setNextDecoratorKey` -/
def setNextDecoratorKey (key : String) : Builder := { b with nextDecoratorKey := key }

/-- `Builder::setNextDecoratorValue` -/
def setNextDecoratorValue (value : String) : Builder := { b with nextDecoratorValue := value }

/-- `Builder::pushNextDecorator` -/
def pushNextDecorator : Except BuildError Builder := do
  assertThat (b.nextDecoratorKey ≠ "")
  assertThat (b.nextDecoratorValue ≠ "")
  if (b.decorators.lookup b.nextDecoratorKey).isSome then
    .error (.runtimeError "Duplicate decorator key")
  else
    return { b with
      decorators := b.decorators ++ [(b.nextDecoratorKey, b.nextDecoratorValue)]
      nextDecoratorKey := ""
      nextDecoratorValue := "" }

/-- `Builder::addIncludePath` -/
def addIncludePath (path : String) : Builder := { b with includes := b.includes ++ [path] }

/-! ### When the methods return -/

section Returns

variable {b b' : Builder} {name : String} {context : ArgContext}

/-- An assertion lets the method go on if it holds. -/
theorem assertThat_eq_ok {cond : Bool} {u : Unit} : assertThat cond = .ok u ↔ cond = true := by
  cases cond <;> simp [assertThat]

/-- An interface begins outside of any other one. -/
theorem beginInterface_eq_ok :
    b.beginInterface name = .ok b' ↔ b.current = none ∧
      b' = { b with current := some (InterfaceDescription.new name b.filename) } := by
  simp only [beginInterface, Fallible.bind_eq_ok, assertThat_eq_ok, Option.isNone_iff_eq_none,
    Fallible.pure_eq_ok, exists_const]

/-- An interface ends inside of one, which joins the finished ones. -/
theorem endInterface_eq_ok :
    b.endInterface = .ok b' ↔ ∃ current, b.current = some current ∧
      b' = { b with allIds := b.allIds ++ [current], current := none } := by
  unfold endInterface
  cases b.current with
  | none => simp
  | some current => simp only [Fallible.pure_eq_ok, Option.some.injEq, exists_eq_left']

/-- A method begins in an interface, outside of any other method, under a new name that does not
start with an underscore. -/
theorem beginMethod_eq_ok :
    b.beginMethod name = .ok b' ↔ ∃ current, b.current = some current ∧ b.currentMethod = none ∧
      name.toList.head? ≠ some '_' ∧ (∀ m ∈ current.methods, m.name ≠ name) ∧
      b' = { b with currentMethod := some (Method.new name) } := by
  unfold beginMethod
  cases b.current with
  | none => simp
  | some current =>
      simp only [Fallible.bind_eq_ok, assertThat_eq_ok, Option.isNone_iff_eq_none, exists_const,
        Option.some.injEq, exists_eq_left']
      refine and_congr_right fun _ => ?_
      -- the name starts with an underscore, is taken, or is accepted
      split
      · next hunderscore => simp [hunderscore]
      · next hunderscore =>
          split
          · next hany =>
              obtain ⟨m, hm, hname⟩ := List.any_eq_true.mp hany
              constructor
              · intro h
                cases h
              · rintro ⟨-, hnames, -⟩
                exact absurd (of_decide_eq_true hname) (hnames m hm)
          · next hany =>
              have hnames : ∀ m ∈ current.methods, m.name ≠ name := by
                intro m hm hname
                exact hany (List.any_eq_true.mpr ⟨m, hm, decide_eq_true hname⟩)
              rw [Fallible.pure_eq_ok]
              exact ⟨fun h => ⟨hunderscore, hnames, h⟩, fun h => h.2.2⟩

/-- A method is made synchronous or asynchronous while it is read. -/
theorem setMethodAsync_eq_ok {isAsync : Bool} :
    b.setMethodAsync isAsync = .ok b' ↔ ∃ method, b.currentMethod = some method ∧
      b' = { b with currentMethod := some { method with async := isAsync } } := by
  unfold setMethodAsync
  cases b.currentMethod with
  | none => simp
  | some method => simp only [Fallible.pure_eq_ok, Option.some.injEq, exists_eq_left']

/-- A method ends with the identifier that its decorators give it, if that can be decoded. -/
theorem endMethod_eq_ok :
    b.endMethod = .ok b' ↔ ∃ current method identifier, b.current = some current ∧
      b.currentMethod = some method ∧ decodeIdentifier b.decorators method = .ok identifier ∧
      b' = { b with
        decorators := []
        current :=
          some { current with methods := current.methods ++ [{ method with identifier }] }
        currentMethod := none } := by
  unfold endMethod
  cases b.current with
  | none => simp
  | some current =>
      cases b.currentMethod with
      | none => simp
      | some method =>
        simp only [Fallible.bind_eq_ok, Fallible.pure_eq_ok, Option.some.injEq, exists_and_left,
          exists_eq_left']

/-- A list of arguments begins in a method, outside of any other list. -/
theorem beginArgs_eq_ok :
    b.beginArgs context = .ok b' ↔ b.current.isSome = true ∧ b.currentMethod.isSome = true ∧
      b.argContext = .none ∧ b' = { b with argContext := context } := by
  simp only [beginArgs, Fallible.bind_eq_ok, assertThat_eq_ok, exists_const, decide_eq_true_eq,
    Fallible.pure_eq_ok]

/-- A list of arguments ends as the kind of list that it began as. -/
theorem endArgs_eq_ok :
    b.endArgs context = .ok b' ↔ b.current.isSome = true ∧ b.currentMethod.isSome = true ∧
      b.argContext = context ∧ b' = { b with argContext := .none } := by
  simp only [endArgs, Fallible.bind_eq_ok, assertThat_eq_ok, exists_const, decide_eq_true_eq,
    Fallible.pure_eq_ok]

/-- An argument needs a list that it is in, a name and the name of a type. -/
theorem pushNextArg_eq_ok :
    b.pushNextArg = .ok b' ↔ ∃ method current, b.currentMethod = some method ∧
      b.argContext ≠ .none ∧ b.nextArgName ≠ "" ∧ b.nextArgTypename ≠ "" ∧
      b.countType (.ofNames b.nextArgName b.nextArgTypename) = .ok current ∧
      b' = { b with
        current
        currentMethod :=
          some (addArg (.ofNames b.nextArgName b.nextArgTypename) method b.argContext)
        nextArgName := ""
        nextArgTypename := "" } := by
  unfold pushNextArg
  cases b.currentMethod with
  | none => simp
  | some method =>
      simp only [Fallible.bind_eq_ok, assertThat_eq_ok, exists_const, decide_eq_true_eq,
        Fallible.pure_eq_ok, Option.some.injEq, exists_and_left, exists_eq_left']

/-- A decorator needs a key that is new and a value. -/
theorem pushNextDecorator_eq_ok :
    b.pushNextDecorator = .ok b' ↔ b.nextDecoratorKey ≠ "" ∧ b.nextDecoratorValue ≠ "" ∧
      b.decorators.lookup b.nextDecoratorKey = none ∧
      b' = { b with
        decorators := b.decorators ++ [(b.nextDecoratorKey, b.nextDecoratorValue)]
        nextDecoratorKey := ""
        nextDecoratorValue := "" } := by
  unfold pushNextDecorator
  simp only [Fallible.bind_eq_ok, assertThat_eq_ok, exists_const, decide_eq_true_eq]
  cases b.decorators.lookup b.nextDecoratorKey with
  | none => simp [Fallible.pure_eq_ok]
  | some value => simp

end Returns

end Builder

end KushOs.Idl
