import Mathlib.Data.List.Nodup
import KushOs.Foundation.ByteBuffer

/-!
# Interface descriptions and the layout of their messages

`InterfaceDescription` with its arguments and methods, and `CodeGenerator::serWriteArgs`, which
lays out the structure of a message: one slot per argument in the order of declaration, then
padding up to a multiple of eight bytes, then the data of the blobs. The layout is a
`MessageStruct`, which carries the facts about its slots that the generated functions rely on.
-/

namespace KushOs.Idl

open ByteBuffer

section Arguments

/-- The builtin types that are not encoded as a blob. -/
inductive PrimitiveType
  | bool
  | int8 | int16 | int32 | int64
  | uint8 | uint16 | uint32 | uint64
  | float32 | float64
  deriving DecidableEq, Repr

/-- The entries of `gWireSizes` for the primitive types. -/
def PrimitiveType.wireSize : PrimitiveType → ℕ
  | .bool => 1
  | .int8 => 1
  | .int16 => 2
  | .int32 => 4
  | .int64 => 8
  | .uint8 => 1
  | .uint16 => 2
  | .uint32 => 4
  | .uint64 => 8
  | .float32 => 4
  | .float64 => 8

/-- The type of an argument: the thirteen builtin ones, and the types of the user. -/
inductive ArgumentType
  | primitive (p : PrimitiveType)
  | string
  | blob
  | custom (typeName : String)
  deriving DecidableEq, Repr

namespace ArgumentType

/-- The search of the constructor of `Argument` in `gPrimitiveTypeNames`, which ignores case. -/
def ofTypeName (typeName : String) : ArgumentType :=
  match typeName.toLower with
  | "bool" => .primitive .bool
  | "int8" => .primitive .int8
  | "int16" => .primitive .int16
  | "int32" => .primitive .int32
  | "int64" => .primitive .int64
  | "uint8" => .primitive .uint8
  | "uint16" => .primitive .uint16
  | "uint32" => .primitive .uint32
  | "uint64" => .primitive .uint64
  | "float32" => .primitive .float32
  | "float64" => .primitive .float64
  | "string" => .string
  | "blob" => .blob
  -- "void" has a size of its own on the wire but is no builtin name, so it is a custom type
  | _ => .custom typeName

/-- The bytes that `serWriteArgs` gives to the slot of an argument: its entry in `gWireSizes`, and
for a custom type the size of the blob pointer, a 32-bit offset and a 32-bit length. -/
def wireSize : ArgumentType → ℕ
  | .primitive p => p.wireSize
  | .string => 2 * 4
  | .blob => 2 * 4
  | .custom _ => 2 * 4

/-- Every slot has a byte. -/
theorem wireSize_pos (t : ArgumentType) : 0 < t.wireSize := by
  cases t with
  | primitive p => cases p <;> decide
  | string => decide
  | blob => decide
  | custom typeName => exact Nat.succ_pos 7

end ArgumentType

/-- An argument of a method, or one of the values that it returns. Its type is the one that the
name of the type, kept as it was written, stands for. -/
structure Argument where
  name : String
  typeName : String
  type : ArgumentType
  type_eq : type = .ofTypeName typeName
  deriving DecidableEq, Repr

/-- The constructor of `Argument`. -/
def Argument.ofNames (name typeName : String) : Argument where
  name
  typeName
  type := .ofTypeName typeName
  type_eq := rfl

/-- An argument of the type `Bool`. -/
def Argument.bool (name : String) : Argument :=
  ⟨name, "Bool", .primitive .bool, by decide +kernel⟩

/-- An argument of the type `String`. -/
def Argument.string (name : String) : Argument := ⟨name, "String", .string, by decide +kernel⟩

/-- An argument of the type `Blob`. -/
def Argument.blob (name : String) : Argument := ⟨name, "Blob", .blob, by decide +kernel⟩

end Arguments

section Layout

/-- A member of a message structure, with its entries of `kElementOffsets` and `kElementSizes`. -/
structure Element where
  argument : Argument
  range : Range
  deriving DecidableEq, Repr

/-- The loop of `serWriteArgs` from `scalarBytes` on: the elements and the final count. -/
def writeElements : ℕ → List Argument → List Element × ℕ
  | scalarBytes, [] => ([], scalarBytes)
  | scalarBytes, a :: args =>
    let bytes := a.type.wireSize
    let rest := writeElements (scalarBytes + bytes) args
    (⟨a, ⟨scalarBytes, bytes⟩⟩ :: rest.1, rest.2)

/-- A slot has the size of its argument. -/
theorem writeElements_range_size (scalarBytes : ℕ) (args : List Argument) :
    ∀ e ∈ (writeElements scalarBytes args).1, e.range.size = e.argument.type.wireSize := by
  induction args generalizing scalarBytes with
  | nil => simp [writeElements]
  | cons a args ih =>
    intro e he
    rcases List.mem_cons.1 he with rfl | he
    · rfl
    · exact ih _ e he

/-- Every slot starts where the one before it ends. -/
theorem writeElements_tiles (scalarBytes : ℕ) (args : List Argument) :
    Tiles scalarBytes ((writeElements scalarBytes args).1.map Element.range)
      (writeElements scalarBytes args).2 := by
  induction args generalizing scalarBytes with
  | nil => rfl
  | cons a args ih => exact ⟨rfl, ih _⟩

/-- There is one slot for every argument, in their order. -/
theorem writeElements_argument (scalarBytes : ℕ) (args : List Argument) :
    (writeElements scalarBytes args).1.map Element.argument = args := by
  induction args generalizing scalarBytes with
  | nil => rfl
  | cons a args ih => exact congrArg (a :: ·) (ih _)

/-- The structure of a message: the slots of its members lie end to end and fill its scalar
bytes. -/
structure MessageStruct where
  elements : List Element
  /-- `kScalarBytes` -/
  scalarBytes : ℕ
  range_size : ∀ e ∈ elements, e.range.size = e.argument.type.wireSize
  tiles : Tiles 0 (elements.map Element.range) scalarBytes

/-- `CodeGenerator::serWriteArgs` -/
def serWriteArgs (args : List Argument) : MessageStruct where
  elements := (writeElements 0 args).1
  scalarBytes := (writeElements 0 args).2
  range_size := writeElements_range_size 0 args
  tiles := writeElements_tiles 0 args

/-- The members of the structure are the arguments, in the order of declaration. -/
theorem serWriteArgs_argument (args : List Argument) :
    (serWriteArgs args).elements.map Element.argument = args :=
  writeElements_argument 0 args

namespace MessageStruct

/-- `kBlobStartOffset` -/
def blobStartOffset (m : MessageStruct) : ℕ := (m.scalarBytes + 7) / 8 * 8

/-- The bytes between the slots and the data of the blobs. -/
def padding (m : MessageStruct) : Range := ⟨m.scalarBytes, m.blobStartOffset - m.scalarBytes⟩

/-- The blobs start behind the slots. -/
theorem scalarBytes_le_blobStartOffset (m : MessageStruct) : m.scalarBytes ≤ m.blobStartOffset := by
  unfold blobStartOffset
  omega

/-- The padding reaches up to the blobs. -/
theorem limit_padding (m : MessageStruct) : m.padding.limit = m.blobStartOffset :=
  Nat.add_sub_cancel' m.scalarBytes_le_blobStartOffset

/-- A slot lies in the scalar bytes. -/
theorem limit_le_scalarBytes (m : MessageStruct) {e : Element} (he : e ∈ m.elements) :
    e.range.limit ≤ m.scalarBytes :=
  m.tiles.le_limit (List.mem_map_of_mem he)

end MessageStruct

end Layout

section Methods

/-- `InterfaceDescription::Method` -/
structure Method where
  name : String
  async : Bool
  identifier : UInt64
  params : List Argument
  returns : List Argument
  deriving DecidableEq, Repr

namespace Method

/-- `GetMethodName`: the name with its first letter in upper case. `SerGetMessageIdEnumName` builds
the enumerator of the method the same way. -/
def methodName (m : Method) : String := m.name.capitalize

/-- The values that the method is declared to return; an asynchronous one is declared `void`. -/
def results (m : Method) : List Argument := if m.async then [] else m.returns

/-- The structure of the request of the method. -/
def request (m : Method) : MessageStruct := serWriteArgs m.params

/-- The structure of its reply, which `serWriteMethod` emits for a synchronous method. -/
def reply (m : Method) : MessageStruct := serWriteArgs m.results

end Method

/-- An interface: the methods that it exports. -/
structure Interface where
  methods : List Method
  deriving Repr

namespace Interface

/-- The method whose generated name is `name`: the one that the enumerator, the marshalling function
and the message structures of this name belong to. -/
def methodNamed (i : Interface) (name : String) : Option Method :=
  i.methods.find? fun m => m.methodName == name

/-- The value of an enumerator of the generated `enum class Type`. -/
def typeOf (i : Interface) (enumName : String) : Option UInt64 :=
  (i.methodNamed enumName).map Method.identifier

/-- The methods have distinct identifiers and distinct generated names. -/
structure WellNamed (i : Interface) : Prop where
  identifiers : (i.methods.map Method.identifier).Nodup
  names : (i.methods.map Method.methodName).Nodup

variable {i : Interface} {m : Method}

/-- A method is found under its generated name. -/
theorem WellNamed.methodNamed (h : i.WellNamed) (hm : m ∈ i.methods) :
    i.methodNamed m.methodName = some m := by
  have hsome : (i.methods.find? fun b => b.methodName == m.methodName).isSome :=
    List.find?_isSome.2 ⟨m, hm, beq_self_eq_true _⟩
  obtain ⟨b, hb⟩ := Option.isSome_iff_exists.1 hsome
  have hname : b.methodName = m.methodName := by simpa using List.find?_some hb
  have heq : b = m := List.inj_on_of_nodup_map h.names (List.mem_of_find?_eq_some hb) hm hname
  exact heq ▸ hb

/-- Its enumerator has its identifier. -/
theorem WellNamed.typeOf (h : i.WellNamed) (hm : m ∈ i.methods) :
    i.typeOf m.methodName = some m.identifier := by
  rw [Interface.typeOf, h.methodNamed hm]
  rfl

end Interface

end Methods

end KushOs.Idl
