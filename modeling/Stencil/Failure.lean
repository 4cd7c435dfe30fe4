/-
The ways in which reading and rendering a template can fail, and what is
said about each.

A malformed template is refused while it is read. While it is rendered, a
name may be undefined, two values may have no order, and host values may
refuse what is asked of them.
-/
import Stencil.Text.Quoted

namespace Stencil

/-- Why markup or the structure of a template is refused. -/
inductive SyntaxError
  /-- No token starts with a character of the markup. -/
  | unexpectedCharacter (found : Char) (markup : String)
  /-- A token of one kind was wanted, and another was found. -/
  | unexpectedToken (wanted found : String) (markup : String)
  /-- No operand starts with the token found. -/
  | notAnExpression (found : String) (markup : String)
  /-- A text stands for an operator and is none. -/
  | unknownOperator (text : String)
  /-- A text stands for a linking word and is none. -/
  | unknownRelation (text : String)
  /-- A clause is empty or starts with an operator. -/
  | invalidClause (tag : String) (markup : String)
  /-- A chunk starts like a tag and is none. -/
  | unterminatedTag (chunk : String)
  /-- A block is open at the end. -/
  | unclosedBlock (tag : String)
  /-- A block is open, and the tag of another one would close it. -/
  | wrongDelimiter (name : String) (tag : String)
  /-- A tag is not known. -/
  | unknownTag (name : String)
  /-- A block goes on after its last branch. -/
  | branchAfterElse (name : String) (tag : String)
  /-- A tag that belongs into a block stands outside all blocks. -/
  | strayTag (name : String)
  deriving DecidableEq, Repr

/-- The name of the tag that closes a block. -/
def closingTag (tag : String) : String := "end" ++ tag

/-- What is said about malformed markup. -/
def SyntaxError.message : SyntaxError → String
  | .unexpectedCharacter c markup =>
    "Unexpected character " ++ Text.quote (String.singleton c) ++
      " in \"" ++ markup ++ "\""
  | .unexpectedToken wanted found markup =>
    "Expected " ++ wanted ++ " but found " ++ found ++
      " in \"" ++ markup ++ "\""
  | .notAnExpression found markup =>
    found ++ " is not a valid expression in \"" ++ markup ++ "\""
  | .unknownOperator text => "Unknown operator " ++ text
  | .unknownRelation text => "Unknown boolean operator " ++ text
  | .invalidClause tag markup =>
    "Syntax Error in tag '" ++ tag ++ "' - Valid syntax: " ++ tag ++
      " [expression]: \"" ++ markup ++ "\""
  | .unterminatedTag chunk =>
    "Tag " ++ Text.quote chunk ++ " was not properly terminated"
  | .unclosedBlock tag => "'" ++ tag ++ "' tag was never closed"
  | .wrongDelimiter name tag =>
    "'" ++ name ++ "' is not a valid delimiter for " ++ tag ++
      " tags. use " ++ closingTag tag
  | .unknownTag name => "Unknown tag '" ++ name ++ "'"
  | .branchAfterElse name tag =>
    "'" ++ name ++ "' after 'else' in " ++ tag ++ " tag"
  | .strayTag name => "Unexpected outer '" ++ name ++ "' tag"

/-- Why something fails. The first six are the library's own errors, the
others are requests that a value or the host itself refuses. -/
inductive Failure
  /-- Markup or the structure of a template is refused. -/
  | malformed (error : SyntaxError)
  /-- A name, or a key on a path, is not there. -/
  | undefinedVariable (name : String)
  /-- A drop has no member of a name. -/
  | undefinedMember (name : String)
  /-- Two values have no order. -/
  | incomparable (left right : String)
  /-- A bound of a range is no integer. -/
  | notAnInteger (shown : String)
  /-- A deferred value fails. -/
  | raised (message : String)
  /-- Infinity is asked for its integer. -/
  | infiniteInteger
  /-- What is not a number is asked for its integer. -/
  | missingInteger
  /-- A text of digits is not read as an integer. -/
  | unreadableInteger (text : String)
  /-- An integer has too many digits to be written. -/
  | tooManyDigits
  /-- A range has more integers than can be counted. -/
  | tooLongToMeasure
  /-- Bytes are asked for a number that is no byte. -/
  | byteOutOfRange (n : Int)
  /-- A value without keys is asked for one. -/
  | missingKey (shown : String)
  /-- The outermost scope is to be left. -/
  | outermostScope
  /-- A finished body is to be read on. -/
  | finishedBody
  /-- A tag that cannot be rendered is rendered. -/
  | cannotRender (tag : String)
  /-- A value is asked for something its kind does not offer. -/
  | notSupported
  /-- No error mode has the name. -/
  | unknownMode (mode : String)
  /-- No probe has the name. -/
  | unknownProbe (name : String)
  /-- A cursor looks at a token in front of all tokens. -/
  | noSuchToken
  /-- An argument of the command assigns nothing. -/
  | notAnAssignment (argument : String)
  /-- What is done nests too deeply. This stands for the recursion limit of
  the host: evaluation that goes back to its start too often, or data that
  contain themselves and are gone through without end. -/
  | tooDeep
  deriving DecidableEq, Repr

namespace Failure

/-- Whether a failure is one of the library's own. -/
def isOwn : Failure → Bool
  | .malformed _ | .undefinedVariable _ | .undefinedMember _
  | .incomparable .. | .notAnInteger _ | .raised _ => true
  | _ => false

/-- Whether a failure says that a name is undefined. -/
def isUndefined : Failure → Bool
  | .undefinedVariable _ | .undefinedMember _ => true
  | _ => false

/-- What is said about a failure. -/
def message : Failure → String
  | .malformed e => e.message
  | .undefinedVariable name => "undefined variable " ++ name
  | .undefinedMember name => "undefined method " ++ name
  | .incomparable left right =>
    "comparison of " ++ left ++ " with " ++ right ++ " failed"
  | .notAnInteger shown => "invalid integer: " ++ shown
  | .raised message => message
  | .infiniteInteger => "infinity is no integer"
  | .missingInteger => "no number is no integer"
  | .unreadableInteger text => "not an integer text: " ++ Text.quote text
  | .tooManyDigits => "too many digits to write"
  | .tooLongToMeasure => "range too long to measure"
  | .byteOutOfRange n => "no byte: " ++ toString n
  | .missingKey shown => shown
  | .outermostScope => "cannot pop the outermost scope"
  | .finishedBody => "body already parsed"
  | .cannotRender tag => tag
  | .notSupported => "not supported by the value"
  | .unknownMode mode => "bad error mode: " ++ mode
  | .unknownProbe name => "Bad method literal: " ++ name
  | .noSuchToken => "tuple index out of range"
  | .notAnAssignment argument => "expected key=value: " ++ argument
  | .tooDeep => "evaluation nested too deeply"

end Failure

/-- A text, if the integers in it have few enough digits to be written. -/
def written (isWritable : Bool) (text : String) : Except Failure String :=
  if isWritable then .ok text else .error .tooManyDigits

theorem written_eq_error {isWritable : Bool} {text : String} {f : Failure} :
    written isWritable text = .error f ↔
      isWritable = false ∧ f = .tooManyDigits := by
  cases isWritable with
  | true => exact ⟨nofun, nofun⟩
  | false =>
    exact ⟨fun h => ⟨rfl, (Except.error.inj h).symm⟩, fun h => h.2 ▸ rfl⟩

end Stencil
