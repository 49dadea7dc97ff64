import RomLedger.Bytes.Utf8
import RomLedger.Text.Numeral
import RomLedger.Text.Quoted

/- What can be wrong with a document: its grammar, the nesting of its tags, an attribute, an entity, the bytes
   of a text, a prefix binding, or the shape of the elements. Every fault has its wording here. -/
namespace RomLedger.Markup

inductive Grammar where
  | bang
  | instruction
  | comment
  | doctype
  | cdata
  | tag
  deriving DecidableEq, Repr

def Grammar.message : Grammar → String
  | .bang => "unknown or missed symbol in markup"
  | .instruction =>
    "processing instruction or xml declaration not closed: `?>` not found before end of input"
  | .comment => "comment not closed: `-->` not found before end of input"
  | .doctype => "DOCTYPE not closed: `>` not found before end of input"
  | .cdata => "CDATA not closed: `]]>` not found before end of input"
  | .tag => "tag not closed: `>` not found before end of input"

/-- Markup that is finished but out of place. Reading goes on behind it. -/
inductive Nesting where
  | doctypeName
  | missingEnd (name : String)
  | unmatchedEnd (name : String)
  | mismatchedEnd (expected found : String)
  deriving DecidableEq, Repr

def Nesting.message : Nesting → String
  | .doctypeName => "`<!DOCTYPE>` declaration does not contain a name of a document type"
  | .missingEnd n => "start tag not closed: `</" ++ n ++ ">` not found before end of input"
  | .unmatchedEnd n => "close tag `</" ++ n ++ ">` does not match any open tag"
  | .mismatchedEnd e f => "expected `</" ++ e ++ ">`, but `</" ++ f ++ ">` was found"

inductive AttributeFault where
  | noEquals (at_ : Nat)
  | noValue (at_ : Nat)
  | noQuote (at_ : Nat)
  | unclosed (at_ : Nat) (quote : UInt8)
  | duplicated (at_ first : Nat)
  deriving DecidableEq, Repr

def AttributeFault.message : AttributeFault → String
  | .noEquals p => s!"position {p}: " ++ "attribute key must be directly followed by `=` or space"
  | .noValue p => s!"position {p}: " ++ "`=` must be followed by an attribute value"
  | .noQuote p => s!"position {p}: " ++ "attribute value must be enclosed in `\"` or `'`"
  | .unclosed p q =>
    s!"position {p}: " ++ "missing closing quote `" ++ String.singleton (Char.ofNat q.toNat)
      ++ "` in attribute value"
  | .duplicated p q => s!"position {p}: duplicated attribute, previous declaration at position {q}"

inductive CharFault where
  | sign
  | number (f : Numeral.Fault)
  | zero
  | notChar (code : Nat)
  deriving DecidableEq, Repr

def CharFault.message : CharFault → String
  | .sign => "unexpected number sign"
  | .number f => f.message
  | .zero => "0x0 character is not permitted in XML"
  | .notChar n => "`" ++ toString n ++ "` is not a valid codepoint"

inductive EntityFault where
  | unknown (first last : Nat) (name : String)
  | unterminated (first last : Nat)
  | char (f : CharFault)
  deriving DecidableEq, Repr

def EntityFault.message : EntityFault → String
  | .unknown a b n => s!"at {a}..{b}: " ++ "unrecognized entity `" ++ n ++ "`"
  | .unterminated a b =>
    s!"Error while escaping character at range {a}..{b}: Cannot find ';' after '&'"
  | .char f => "invalid character reference: " ++ f.message

/-- A prefix bound to a name that is reserved, or the other way round. -/
inductive ScopeFault where
  | xmlPrefix (name : Bytes)
  | xmlnsPrefix (name : Bytes)
  | xmlName (pre : Bytes)
  | xmlnsName (pre : Bytes)
  deriving DecidableEq, Repr

def quotedBytes (b : Bytes) : String :=
  let upper (n : Nat) : Char := if n < 10 then Char.ofNat (48 + n) else Char.ofNat (55 + n)
  let shown (c : UInt8) : List Char :=
    if c == 34 then ['\\', '"']
    else if 32 ≤ c ∧ c ≤ 126 then [Char.ofNat c.toNat]
    else if c < 16 then ['0', 'x', upper c.toNat]
    else ['0', 'x', upper (c.toNat / 16), upper (c.toNat % 16)]
  String.ofList ('"' :: b.flatMap shown ++ ['"'])

def ScopeFault.message : ScopeFault → String
  | .xmlPrefix n => "the namespace prefix 'xml' cannot be bound to '" ++ quotedBytes n ++ "'"
  | .xmlnsPrefix n => "the namespace prefix 'xmlns' cannot be bound to '" ++ quotedBytes n ++ "'"
  | .xmlName p => "the namespace prefix '" ++ quotedBytes p
      ++ "' cannot be bound to 'http:" ++ "//www.w3.org/XML/1998/namespace'"
  | .xmlnsName p => "the namespace prefix '" ++ quotedBytes p
      ++ "' cannot be bound to 'http:" ++ "//www.w3.org/2000/xmlns/'"

inductive Malformed where
  | io
  | grammar (g : Grammar)
  | nesting (n : Nesting)
  | attribute_ (a : AttributeFault)
  | encoding (e : Utf8.Fault)
  | entity (e : EntityFault)
  | scope (s : ScopeFault)
  deriving DecidableEq, Repr

def ioText : String := "read failed"

def Malformed.message : Malformed → String
  | .io => "I/O error: " ++ ioText
  | .grammar g => "syntax error: " ++ g.message
  | .nesting n => "ill-formed document: " ++ n.message
  | .attribute_ a => "error while parsing attribute: " ++ a.message
  | .encoding e => "cannot decode input using UTF-8: " ++ e.message
  | .entity e => e.message
  | .scope s => s.message

def Malformed.causes : Malformed → List String
  | .io => [ioText]
  | .grammar g => [g.message]
  | .nesting n => [n.message]
  | .attribute_ a => [a.message]
  | .encoding e => ["cannot decode input using UTF-8: " ++ e.message, e.message]
  | .entity (.char (.number f)) =>
    [(EntityFault.char (.number f)).message, (CharFault.number f).message, f.message]
  | .entity (.char f) => [(EntityFault.char f).message, f.message]
  | .entity e => [e.message]
  | .scope s => [s.message]

inductive Fault where
  | malformed (m : Malformed)
  | duplicateField (name : String)
  | wrongType (found expected : String)
  | unexpectedStart (name : Bytes)
  | unexpectedEnd
  deriving DecidableEq, Repr

def Fault.message : Fault → String
  | .malformed m => m.message
  | .duplicateField n => "duplicate field `" ++ n ++ "`"
  | .wrongType f e => "invalid type: string " ++ Quoted.encode f ++ ", expected " ++ e
  | .unexpectedStart n => "unexpected `Event::Start(" ++ quotedBytes n ++ ")`"
  | .unexpectedEnd => "unexpected `Event::Eof`"

def Fault.causes : Fault → List String
  | .malformed m => m.message :: m.causes
  | _ => []

end RomLedger.Markup
