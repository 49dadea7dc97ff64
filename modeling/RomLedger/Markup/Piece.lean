import RomLedger.Feed
import RomLedger.Markup.Tag

/- A document cut into pieces: start and end tags, texts, and markup that carries nothing for a catalog. An
   empty-element tag gives a start and an end. -/
namespace RomLedger.Markup

inductive Piece where
  | start (t : Tag)
  | close (name : Bytes)
  | text (b : Bytes)
  | cdata (b : Bytes)
  | doctype
  | note
  | ended
  deriving DecidableEq, Repr

def Piece.opens (name : Bytes) : Piece → Bool
  | .start t => t.name = name
  | _ => false

/-- A piece with the line reached behind it. -/
structure Item where
  what : Except Malformed Piece
  line : Nat

inductive Phase where
  | opening
  | text
  | markup
  | impliedEnd
  | done
  deriving DecidableEq, Repr

structure Scanner where
  reader : Reader
  phase : Phase
  opened : List Bytes

namespace Scanner

def ofReader (r : Reader) : Scanner := ⟨r, .opening, []⟩

def lessThan : UInt8 := 60
def greaterThan : UInt8 := 62
def bang : UInt8 := 33
def slash : UInt8 := 47
def question : UInt8 := 63
def dash : UInt8 := 45
def bracket : UInt8 := 91
def closeBracket : UInt8 := 93

def textStep (_ : Unit) (b : UInt8) : Reader.Step Unit :=
  if b == lessThan then .last () else .go ()

def tagStep (quote : Option UInt8) (b : UInt8) : Reader.Step (Option UInt8) :=
  match quote with
  | some q => .go (if b == q then none else some q)
  | none =>
    if b == greaterThan then .last none
    else .go (if Attribute.isQuote b then some b else none)

def instructionStep (asked : Bool) (b : UInt8) : Reader.Step Bool :=
  if asked && b == greaterThan then .last false else .go (b == question)

/-- Ends at a bracket that comes after two of `b`, and after more than `least` bytes in all. The
state counts the bytes so far and those of `b` just before. -/
def pairStep (twin : UInt8) (least : Nat) (s : Nat × Nat) (b : UInt8) :
    Reader.Step (Nat × Nat) :=
  if b == greaterThan && 2 ≤ s.2 && least < s.1 then .last (0, 0)
  else .go (s.1 + 1, if b == twin then s.2 + 1 else 0)

def doctypeStep (depth : Nat) (b : UInt8) : Reader.Step Nat :=
  if b == lessThan then .go (depth + 1)
  else if b == greaterThan then (if depth = 0 then .last 0 else .go (depth - 1))
  else .go depth

def finished {σ : Type} (run : Reader.Run σ) (g : Grammar) : Except Malformed Bytes :=
  match run.stop with
  | .last => .ok run.taken.dropLast
  | .failed => .error .io
  | _ => .error (.grammar g)

def shown (name : Bytes) : String :=
  match Utf8.decode name with
  | .ok s => s
  | .error _ => ""

def startTag (s : Scanner) (b : Bytes) : Except Malformed Piece × Scanner :=
  if b.getLast? = some slash then
    let t := Tag.ofContent b.dropLast
    (.ok (.start t), { s with phase := .impliedEnd, opened := t.name :: s.opened })
  else
    let t := Tag.ofContent b
    (.ok (.start t), { s with phase := .text, opened := t.name :: s.opened })

def trimEnd (b : Bytes) : Bytes := (b.reverse.dropWhile isBlank).reverse
def trimStart (b : Bytes) : Bytes := b.dropWhile isBlank

def endTag (s : Scanner) (b : Bytes) : Except Malformed Piece × Scanner :=
  let name := if b.all isBlank then b else trimEnd b
  let s := { s with phase := .text }
  match s.opened with
  | [] => (.error (.nesting (.unmatchedEnd (shown name))), s)
  | expected :: outer =>
    let s := { s with opened := outer }
    if name = expected then (.ok (.close name), s)
    else (.error (.nesting (.mismatchedEnd (shown expected) (shown name))), s)

def commentOpening : Bytes := Bytes.ofString "--"
def cdataOpening : Bytes := Bytes.ofString "[CDATA["
def doctypeOpening : Bytes := Bytes.ofString "doctype"

def toLower (b : UInt8) : UInt8 := if 65 ≤ b ∧ b ≤ 90 then b + 32 else b

def bangPiece (kind : Grammar) (b : Bytes) : Except Malformed Piece :=
  match kind with
  | .comment => if commentOpening.isPrefixOf b then .ok .note else .error (.grammar kind)
  | .cdata =>
    if cdataOpening.isPrefixOf b then .ok (.cdata ((b.drop 7).dropLast.dropLast))
    else .error (.grammar kind)
  | .doctype =>
    if (b.take 7).map toLower = doctypeOpening then
      if (b.drop 7).all isBlank then .error (.nesting .doctypeName) else .ok .doctype
    else .error (.grammar kind)
  | k => .error (.grammar k)

def bangMarkup (s : Scanner) : Except Malformed Piece × Scanner :=
  match s.reader.peek with
  | (.failed, r) => (.error .io, { s with reader := r })
  | (.ended, r) => (.error (.grammar .bang), { s with reader := r })
  | (.byte b, r) =>
    if b == bracket then
      let run := r.run (pairStep closeBracket 0) (1, 0)
      ((finished run .cdata).bind (bangPiece .cdata), { s with reader := run.reader })
    else if b == dash then
      let run := r.run (pairStep dash 4) (1, 0)
      ((finished run .comment).bind (bangPiece .comment), { s with reader := run.reader })
    else if toLower b == 100 then
      let run := r.run doctypeStep 0
      ((finished run .doctype).bind (bangPiece .doctype), { s with reader := run.reader })
    else (.error (.grammar .bang), { s with reader := r })

def markup (s : Scanner) : Except Malformed Piece × Scanner :=
  let s := { s with phase := .text }
  match s.reader.peek with
  | (.failed, r) => (.error .io, { s with reader := r })
  | (.ended, r) => (.error (.grammar .tag), { s with reader := r })
  | (.byte b, r) =>
    if b == bang then { s with reader := r.skip }.bangMarkup
    else if b == question then
      let run := r.run instructionStep false
      let s := { s with reader := run.reader }
      match finished run .instruction with
      | .error e => (.error e, s)
      | .ok content =>
        (if content.length < 2 then .error (.grammar .instruction) else .ok .note, s)
    else
      let run := r.run tagStep none
      let s := { s with reader := run.reader }
      match finished run .tag with
      | .error e => (.error e, s)
      | .ok content => if b == slash then s.endTag content.tail else s.startTag content

def text (s : Scanner) : Except Malformed Piece × Scanner :=
  let run := s.reader.run textStep ()
  let s := { s with reader := run.reader }
  match run.stop with
  | .failed => (.error .io, s)
  | .last =>
    if run.taken.length = 1 then s.markup
    else (.ok (.text run.taken.dropLast), { s with phase := .markup })
  | _ => (.ok (if run.taken = [] then .ended else .text run.taken), { s with phase := .done })

def atOpening (s : Scanner) : Except Malformed Piece × Scanner :=
  match s.reader.fill with
  | (none, r) => (.error .io, { s with reader := r })
  | (some b, r) => { s with reader := { r with buffer := Bytes.withoutMark b } }.text

def scan (s : Scanner) : Except Malformed Piece × Scanner :=
  match s.phase with
  | .opening => s.atOpening
  | .text => s.text
  | .markup => s.markup
  | .impliedEnd =>
    match s.opened with
    | [] => (.ok .ended, { s with phase := .done })
    | name :: outer => (.ok (.close name), { s with phase := .text, opened := outer })
  | .done => (.ok .ended, s)

/-- The next piece. After an end, and after any fault but one of nesting, only ends follow. -/
def next (s : Scanner) : Except Malformed Piece × Scanner :=
  match s.scan with
  | (.error (.nesting n), s) => (.error (.nesting n), s)
  | (.error e, s) => (.error e, { s with phase := .done })
  | (.ok .ended, s) => (.ok .ended, { s with phase := .done })
  | p => p

def collect : Nat → Scanner → List Item × Scanner
  | 0, s => ([], s)
  | budget + 1, s =>
    let (what, s) := s.next
    let item : Item := ⟨what, s.reader.meter.line⟩
    match what with
    | .ok .ended => ([item], s)
    | _ =>
      let (items, s) := collect budget s
      (item :: items, s)

/-- All pieces. One byte gives at most two of them, and a fault is followed by an end. -/
def pieces (s : Scanner) : List Item × Scanner := collect (2 * s.reader.left + 3) s

end Scanner
end RomLedger.Markup
