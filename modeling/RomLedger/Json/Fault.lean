import RomLedger.Bytes.Utf8

/- What can be wrong with a JSON text. A fault is of one of three kinds: the text ends early, it is malformed,
   or it is of another shape than was asked for. -/
namespace RomLedger.Json

inductive Cause where
  | endOfList
  | endOfObject
  | endOfText
  | endOfValue
  | expectedColon
  | expectedItemEnd
  | expectedFieldEnd
  | expectedWord
  | expectedValue
  | invalidEscape
  | invalidNumber
  | numberOutOfRange
  | controlCharacter
  | nameNotText
  | loneSurrogate
  | trailingComma
  | trailingCharacters
  | brokenPair
  | wrongType (found expected : String)
  | wrongValue (found expected : String)
  | wrongLength (count : Nat) (expected : String)
  | missingField (name : String)
  | duplicateField (name : String)
  deriving DecidableEq, Repr

inductive Kind where
  | unfinished
  | malformed
  | mismatch
  deriving DecidableEq, Repr

def Cause.kind : Cause → Kind
  | .endOfList | .endOfObject | .endOfText | .endOfValue => .unfinished
  | .wrongType .. | .wrongValue .. | .wrongLength .. | .missingField _ | .duplicateField _ => .mismatch
  | _ => .malformed

def Cause.message : Cause → String
  | .endOfList => "EOF while parsing a list"
  | .endOfObject => "EOF while parsing an object"
  | .endOfText => "EOF while parsing a string"
  | .endOfValue => "EOF while parsing a value"
  | .expectedColon => "expected `:`"
  | .expectedItemEnd => "expected `,` or `]`"
  | .expectedFieldEnd => "expected `,` or `\x7d`"
  | .expectedWord => "expected ident"
  | .expectedValue => "expected value"
  | .invalidEscape => "invalid escape"
  | .invalidNumber => "invalid number"
  | .numberOutOfRange => "number out of range"
  | .controlCharacter => "control character (\\u0000-\\u001F) found while parsing a string"
  | .nameNotText => "key must be a string"
  | .loneSurrogate => "lone leading surrogate in hex escape"
  | .trailingComma => "trailing comma"
  | .trailingCharacters => "trailing characters"
  | .brokenPair => "unexpected end of hex escape"
  | .wrongType found expected => "invalid type: " ++ found ++ ", expected " ++ expected
  | .wrongValue found expected => "invalid value: " ++ found ++ ", expected " ++ expected
  | .wrongLength n expected => s!"invalid length {n}, expected " ++ expected
  | .missingField name => "missing field `" ++ name ++ "`"
  | .duplicateField name => "duplicate field `" ++ name ++ "`"

/-- A cause with the text that was left and the bytes of it that belong to the fault. -/
structure Fault where
  cause : Cause
  rest : List Char
  past : Nat
  deriving DecidableEq, Repr

namespace Fault

def before (c : Cause) (rest : List Char) : Fault := ⟨c, rest, 0⟩

def upon (c : Cause) (rest : List Char) : Fault := ⟨c, rest, 1⟩

def reached (f : Fault) (text : String) : Bytes :=
  let bytes := Bytes.ofString text
  bytes.take (bytes.length - (f.rest.flatMap String.utf8EncodeChar).length + f.past)

def position (f : Fault) (text : String) : Nat × Nat :=
  let bytes := f.reached text
  (bytes.newlines + 1, (bytes.reverse.takeWhile (· != Bytes.newline)).length)

def message (f : Fault) (text : String) : String :=
  let (line, column) := f.position text
  f.cause.message ++ s!" at line {line} column {column}"

end Fault
end RomLedger.Json
