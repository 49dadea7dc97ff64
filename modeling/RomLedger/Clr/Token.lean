import RomLedger.Text.Quoted

/- Tokens of the text grammar. Keywords are ordinary words and may stand where a value is expected. -/
namespace RomLedger.Clr

inductive Keyword where
  | clrmamepro
  | game
  | rom
  | name
  | description
  | size
  | crc
  | md5
  | sha1
  deriving DecidableEq, Repr

inductive Kind where
  | openBrace
  | closeBrace
  | keyword (k : Keyword)
  | quoted
  | bare
  | ended
  | faulty
  deriving DecidableEq, Repr

/-- A token with the line of its first byte. The text of a quoted token is unescaped; that of a
faulty one says what is wrong. -/
structure Token where
  kind : Kind
  text : String
  line : Nat
  deriving DecidableEq, Repr

def Keyword.label : Keyword → String
  | .clrmamepro => "ClrMamePro"
  | .game => "Game"
  | .rom => "Rom"
  | .name => "Name"
  | .description => "Description"
  | .size => "Size"
  | .crc => "Crc"
  | .md5 => "Md5"
  | .sha1 => "Sha1"

namespace Kind

def label : Kind → String
  | .openBrace => "OpenBrace"
  | .closeBrace => "CloseBrace"
  | .keyword k => k.label
  | .quoted => "QuotedString"
  | .bare => "Value"
  | .ended => "Eof"
  | .faulty => "Error"

def isKeyword : Kind → Bool
  | .keyword _ => true
  | _ => false

def isLast : Kind → Bool
  | .ended | .faulty => true
  | _ => false

end Kind

def keywords : List (String × Keyword) :=
  [("clrmamepro", .clrmamepro), ("game", .game), ("machine", .game), ("resource", .game),
   ("rom", .rom), ("name", .name), ("description", .description), ("size", .size),
   ("crc", .crc), ("crc32", .crc), ("md5", .md5), ("sha1", .sha1)]

def classify (word : String) : Kind :=
  match keywords.lookup word.toLower with
  | some k => .keyword k
  | none => .bare

def Token.shown (t : Token) : String :=
  match t.kind with
  | .ended => "EOF"
  | .faulty => s!"{t.text} (line {t.line})"
  | k => k.label ++ " " ++ Quoted.encode t.text ++ s!" (line {t.line})"

end RomLedger.Clr
