import RomLedger.Bytes.Hex
import RomLedger.Decimal.Shortest

/- JSON values and their text. An object keeps its fields in order. The layout decides about line breaks and
   blanks alone: with it the text is laid out over lines, or stands in one line. -/
namespace RomLedger.Json

inductive Value where
  | null
  | bool (b : Bool)
  | integer (n : Int)
  | decimal (x : Float)
  | text (s : String)
  | list (items : List Value)
  | object (fields : List (String × Value))
  deriving Repr

/-- How one character stands in a text: a quote, a backslash and the control characters are escaped,
five of these by a letter, and nothing else is. -/
def escape (c : Char) : List Char :=
  if c = '"' then ['\\', '"']
  else if c = '\\' then ['\\', '\\']
  else if c = '\n' then ['\\', 'n']
  else if c = '\r' then ['\\', 'r']
  else if c = '\t' then ['\\', 't']
  else if c = '\x08' then ['\\', 'b']
  else if c = '\x0c' then ['\\', 'f']
  else if c.toNat < 32 then
    ['\\', 'u', '0', '0', Hex.digit (c.toNat / 16), Hex.digit (c.toNat % 16)]
  else [c]

def quoted (s : String) : List Char := '"' :: (s.toList.flatMap escape ++ ['"'])

def integerText (n : Int) : List Char :=
  match n with
  | .ofNat n => Nat.toDigits 10 n
  | .negSucc n => '-' :: Nat.toDigits 10 (n + 1)

structure Layout where
  gap : Nat → List Char
  colon : List Char

def Layout.lines : Layout := ⟨fun depth => '\n' :: List.replicate (2 * depth) ' ', [':', ' ']⟩

def Layout.oneLine : Layout := ⟨fun _ => [], [':']⟩

mutual

def Value.write (l : Layout) (depth : Nat) : Value → List Char
  | .null => "null".toList
  | .bool true => "true".toList
  | .bool false => "false".toList
  | .integer n => integerText n
  | .decimal x => if x.isFinite then (Decimal.shownFloat x).toList else "null".toList
  | .text s => quoted s
  | .list [] => ['[', ']']
  | .list (v :: rest) =>
    '[' :: (l.gap (depth + 1) ++ v.write l (depth + 1) ++ writeItems l (depth + 1) rest
      ++ l.gap depth ++ [']'])
  | .object [] => ['\x7b', '\x7d']
  | .object ((name, v) :: rest) =>
    '\x7b' :: (l.gap (depth + 1) ++ quoted name ++ l.colon ++ v.write l (depth + 1)
      ++ writeFields l (depth + 1) rest ++ l.gap depth ++ ['\x7d'])

def writeItems (l : Layout) (depth : Nat) : List Value → List Char
  | [] => []
  | v :: rest => ',' :: (l.gap depth ++ v.write l depth ++ writeItems l depth rest)

def writeFields (l : Layout) (depth : Nat) : List (String × Value) → List Char
  | [] => []
  | (name, v) :: rest =>
    ',' :: (l.gap depth ++ quoted name ++ l.colon ++ v.write l depth ++ writeFields l depth rest)

end

def Value.pretty (v : Value) : String := String.ofList (v.write .lines 0)

def Value.compact (v : Value) : String := String.ofList (v.write .oneLine 0)

end RomLedger.Json
