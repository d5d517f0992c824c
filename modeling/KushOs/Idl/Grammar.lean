import KushOs.Foundation.Peg
import KushOs.Idl.Builder

/-!
# The grammar of interface descriptions

The rules of `IDLGrammar.h`, the actions of `InterfaceDescriptionBuilderActions.h`, and
`IDLParser::parse`. PEGTL is an external library; `Peg.Rule.run` gives its rules their documented
meaning. A character stands for a byte of the file.
-/

namespace KushOs.Idl

open Peg

namespace Grammar

/-- The rules that have an action. -/
inductive Action
  | interfaceName
  | interfaceEnd
  | methodName
  | methodEnd
  | methodAsyncReturnMarker
  | methodSyncReturnMarker
  | methodArgsOpen
  | methodArgsClose
  | methodReturnOpen
  | methodReturnClose
  | methodArgName
  | methodArgType
  | methodArgEnd
  | decoratorKey
  | decoratorValue
  | decoratorClose
  | includePath
  deriving DecidableEq, Repr

/-- A rule of the grammar. -/
abbrev G := Rule Action Char

/-! ## Rules of PEGTL -/

/-- A letter or an underscore. -/
def isIdentifierFirst (c : Char) : Bool :=
  ('a' ≤ c ∧ c ≤ 'z') ∨ ('A' ≤ c ∧ c ≤ 'Z') ∨ c = '_'

/-- A letter, a digit or an underscore. -/
def isIdentifierOther (c : Char) : Bool := isIdentifierFirst c ∨ ('0' ≤ c ∧ c ≤ '9')

/-- A space or a tab. -/
def isBlank (c : Char) : Bool := c = ' ' ∨ c = '\t'

def char (c : Char) : G := .one (· = c)
def blank : G := .one isBlank
def identifier : G := .seq (.one isIdentifierFirst) (.star (.one isIdentifierOther))
def keyword (text : String) : G := .seq (.str text.toList) (.notAt isIdentifierOther)
def eol : G := .sor (.str ['\n']) (.str ['\r', '\n'])
def eolf : G := .sor eol .eof

/-! ## Whitespace, comments and includes -/

/-- The characters of `ws`. -/
def isWs (c : Char) : Bool := c = ' ' ∨ c = '\t' ∨ c = '\n' ∨ c = '\r'

def ws : G := .one isWs
def padr (r : G) : G := .seq r (.star ws)
def padl (r : G) : G := .seq (.star ws) r
def pad (r : G) : G := .seq (.star ws) (.seq r (.star ws))

def singleCommentCont : G := .skipTo eolf
def singleComment : G := .seq (.star ws) (.seq (.str ['/', '/']) singleCommentCont)
def multiCommentCont : G := .skipTo (.str ['*', '/'])
def multiComment : G := .seq (.star ws) (.seq (.str ['/', '*']) multiCommentCont)
def comment : G := .sor singleComment multiComment

def includeOpen : G := char '<'
/-- The characters of an include path. -/
def isPathChar (c : Char) : Bool := isIdentifierOther c ∨ c = '.' ∨ c = '/'
def includePath : G := .act .includePath (.star (.one isPathChar))
def includeClose : G := char '>'
def includeCont : G := .skipTo eolf
def «include» : G :=
  .seq (.str "#include".toList) (.seq (.star blank)
    (.seq includeOpen (.seq includePath (.seq includeClose includeCont))))

def emptyLine : G := .seq (.star blank) eol

/-! ## Decorators -/

def decoratorWs : G := .star blank
def decoratorOpen : G := char '['
def decoratorKey : G := .act .decoratorKey identifier
def decoratorSep : G := pad (char '=')
def decoratorValue : G := .act .decoratorValue (.star (.one isIdentifierOther))
def decoratorClose : G := .act .decoratorClose (char ']')
def decoratorContent : G := .seq decoratorKey (.seq decoratorSep decoratorValue)
def methodDecoratorGroup : G :=
  .seq decoratorOpen (.seq decoratorContent (.seq decoratorClose decoratorWs))

/-! ## Methods -/

def methodArgName : G := .act .methodArgName identifier
def methodArgSep : G := pad (char ':')
def methodArgType : G := .act .methodArgType
  (.seq (.one isIdentifierFirst) (.star (.sor (.one isIdentifierOther) (.str [':', ':']))))
def methodArgEnd : G := .act .methodArgEnd .success
def methodArg : G := .seq methodArgName (.seq methodArgSep (.seq methodArgType methodArgEnd))

def methodNextArgSep : G := padr (char ',')
def methodNextArg : G := methodArg

def methodArgsOpen : G := .act .methodArgsOpen (char '(')
def methodArgs : G := .opt (.seq methodArg (.star (.seq methodNextArgSep methodNextArg)))
def methodArgsClose : G := .act .methodArgsClose (char ')')
def methodArgsGroup : G :=
  .seq (.must methodArgsOpen) (.seq (.must methodArgs) (.must methodArgsClose))

def methodReturnOpen : G := .act .methodReturnOpen (char '(')
def methodReturnClose : G := .act .methodReturnClose (char ')')
def methodWs : G := .star blank
def methodName : G := .act .methodName identifier
def methodReturn : G :=
  .seq (.must methodReturnOpen) (.seq (.must methodArgs) (.must methodReturnClose))

def methodAsyncReturnMarker : G := .act .methodAsyncReturnMarker (.str ['=', '|'])
def methodSyncReturnMarker : G := .act .methodSyncReturnMarker (.str ['=', '>'])
def methodSyncReturn : G :=
  .seq (.must methodSyncReturnMarker) (.seq (.must methodWs) (.must methodReturn))

def methodEnd : G := .act .methodEnd .success
def methodReturnType : G := .sor methodAsyncReturnMarker methodSyncReturn

def method : G :=
  .seq methodName (.seq methodWs
    (.seq (.opt (.star methodDecoratorGroup))
      (.seq methodWs (.seq methodArgsGroup
        (.seq methodWs (.seq methodReturnType
          (.seq methodWs methodEnd)))))))

/-! ## Interfaces -/

def interfaceName : G := .act .interfaceName identifier
def interfaceStart : G :=
  .seq (padl (keyword "interface")) (.seq ws.plus
    (.seq interfaceName (.seq (.star ws) (char '{'))))
def interfaceMember : G := .sor emptyLine (.sor comment (padl method))
def interfaceNextMember : G := interfaceMember
def interfaceContent : G := .opt (.seq interfaceMember (.star interfaceNextMember))
def interfaceEnd : G := .act .interfaceEnd (pad (char '}'))
def interface : G := .seq interfaceStart (.seq interfaceContent interfaceEnd)

/-- A comment, an include, an interface or an empty line. -/
def topLevel : G := .sor emptyLine (.sor «include» (.sor comment interface))

def grammar : G := .seq (.must (.star topLevel)) (.must .eof)

end Grammar

/-- The actions, on the text that their rule matched. -/
def Builder.act (b : Builder) (string : String) : Grammar.Action → Except BuildError Builder
  | .interfaceName => b.beginInterface string
  | .interfaceEnd => b.endInterface
  | .methodName => b.beginMethod string
  | .methodEnd => b.endMethod
  | .methodAsyncReturnMarker => b.setMethodAsync true
  | .methodSyncReturnMarker => b.setMethodAsync false
  | .methodArgsOpen => b.beginMethodParams
  | .methodArgsClose => b.endMethodParams
  | .methodReturnOpen => b.beginMethodReturns
  | .methodReturnClose => b.endMethodReturns
  | .methodArgName => .ok (b.setNextArgName string)
  | .methodArgType => .ok (b.setNextArgTypename string)
  | .methodArgEnd => b.pushNextArg
  | .decoratorKey => .ok (b.setNextDecoratorKey string)
  | .decoratorValue => .ok (b.setNextDecoratorValue string)
  | .decoratorClose => b.pushNextDecorator
  | .includePath => .ok (b.addIncludePath string)

/-- The actions, on characters. -/
def Builder.apply (a : Grammar.Action) (text : List Char) (b : Builder) :
    Except BuildError Builder :=
  b.act (String.ofList text) a

/-- An action sees the text as a string. -/
theorem Builder.apply_toList (a : Grammar.Action) (string : String) (b : Builder) :
    Builder.apply a string.toList b = b.act string a := by
  rw [Builder.apply, String.ofList_toList]

/-- How a parse can end without interfaces. -/
inductive ParseFailure
  /-- The grammar does not match. -/
  | noMatch
  /-- A parse error, or an exception from the builder. -/
  | raised (e : Peg.Error BuildError)
  /-- The parser does not stop. -/
  | diverged
  deriving DecidableEq, Repr

/-- `IDLParser::parse` on the text of a file. -/
def parse (filename : String) (text : List Char) :
    Except ParseFailure (List InterfaceDescription) :=
  match Grammar.grammar.run Builder.apply text { filename } with
  | .matched _ b => .ok b.finalize
  | .noMatch _ => .error .noMatch
  | .raised e => .error (.raised e)
  | .diverged => .error .diverged

end KushOs.Idl
