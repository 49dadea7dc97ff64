import RomLedger.Catalog.Basic
import RomLedger.Catalog.Coercion
import RomLedger.Clr.Lexer

/- Statements of the text grammar, read by an automaton that is shown one token at a time. A header block sets
   the name and description of the catalog, a game block adds a game, a rom block inside it adds a file. -/
namespace RomLedger.Clr

inductive HashField where
  | crc
  | md5
  | sha1
  deriving DecidableEq, Repr

def HashField.digits : HashField → Nat
  | .crc => Coercion.crcDigits
  | .md5 => Coercion.md5Digits
  | .sha1 => Coercion.sha1Digits

def HashField.set (r : Rom) (b : Option Bytes) : HashField → Rom
  | .crc => { r with crc := b }
  | .md5 => { r with md5 := b }
  | .sha1 => { r with sha1 := b }

/-- A field that the next token gives its value. -/
inductive Field where
  | name
  | description
  | size
  | hash (h : HashField)
  deriving DecidableEq, Repr

/-- A place in the nesting of known blocks, with what was read of the blocks that are open. -/
inductive Place where
  | top
  | header
  | game (g : Game)
  | rom (g : Game) (r : Rom)
  deriving DecidableEq, Repr

inductive Mode where
  | at_ (p : Place)
  | opening (p : Place)
  | value (f : Field) (p : Place)
  | skipping (depth : Nat) (p : Place)
  deriving DecidableEq, Repr

structure State where
  catalog : Catalog
  mode : Mode
  deriving DecidableEq, Repr

def State.start : State := ⟨.blank, .at_ .top⟩

inductive Wanted where
  | openBrace
  | text
  | value
  deriving DecidableEq, Repr

def Wanted.label : Wanted → String
  | .openBrace => "open brace"
  | .text => "quoted string or value"
  | .value => "value"

inductive Cause where
  | lexical (t : Token)
  | unexpected (w : Wanted) (t : Token)
  | unexpectedEnd
  | badInteger (e : Coercion.BadInteger)
  deriving DecidableEq, Repr

def Cause.message : Cause → String
  | .lexical t => "lexer error: " ++ t.shown
  | .unexpected w t => "expected " ++ w.label ++ ", got " ++ t.shown
  | .unexpectedEnd => "unexpected end of input"
  | .badInteger e => e.message

def Cause.causes : Cause → List String
  | .badInteger e => [e.fault.message]
  | _ => []

def Place.field? : Place → Keyword → Option Field
  | .header, .name | .game _, .name | .rom _ _, .name => some .name
  | .header, .description | .game _, .description => some .description
  | .rom _ _, .size => some .size
  | .rom _ _, .crc => some (.hash .crc)
  | .rom _ _, .md5 => some (.hash .md5)
  | .rom _ _, .sha1 => some (.hash .sha1)
  | _, _ => none

def Place.block? : Place → Keyword → Option Place
  | .top, .clrmamepro => some .header
  | .top, .game => some (.game .blank)
  | .game g, .rom => some (.rom g .blank)
  | _, _ => none

def close (c : Catalog) : Place → State
  | .top => ⟨c, .at_ .top⟩
  | .header => ⟨c, .at_ .top⟩
  | .game g => ⟨{ c with games := c.games ++ [g] }, .at_ .top⟩
  | .rom g r => ⟨c, .at_ (.game { g with roms := g.roms ++ [r] })⟩

def Place.outer : Place → Place
  | .rom g _ => .game g
  | p => p

def setName (c : Catalog) (s : String) : Place → State
  | .top => ⟨c, .at_ .top⟩
  | .header => ⟨{ c with name := s }, .at_ .header⟩
  | .game g => ⟨c, .at_ (.game { g with name := s })⟩
  | .rom g r => ⟨c, .at_ (.rom g { r with name := s })⟩

def setDescription (c : Catalog) (s : String) : Place → State
  | .header => ⟨{ c with description := s }, .at_ .header⟩
  | .game g => ⟨c, .at_ (.game { g with description := s })⟩
  | p => ⟨c, .at_ p⟩

def setSize (c : Catalog) (n : UInt64) : Place → State
  | .rom g r => ⟨c, .at_ (.rom g { r with size := n })⟩
  | p => ⟨c, .at_ p⟩

def setHash (c : Catalog) (h : HashField) (s : String) (p : Place) : State :=
  match p, Coercion.hash h.digits s with
  | .rom g r, .ok b => ⟨c, .at_ (.rom g (h.set r b))⟩
  | p, .error _ => ⟨c, .skipping 0 p.outer⟩
  | p, _ => ⟨c, .at_ p⟩

def stepAt (c : Catalog) (p : Place) (t : Token) : State :=
  match t.kind with
  | .openBrace => ⟨c, .skipping 0 p⟩
  | .closeBrace => close c p
  | .keyword k =>
    match p.field? k, p.block? k with
    | some f, _ => ⟨c, .value f p⟩
    | none, some b => ⟨c, .opening b⟩
    | none, none => ⟨c, .at_ p⟩
  | _ => ⟨c, .at_ p⟩

def stepValue (c : Catalog) (f : Field) (p : Place) (t : Token) : Except Cause State :=
  match f with
  | .name | .description =>
    match t.kind with
    | .quoted | .bare | .keyword _ =>
      .ok (if f = .name then setName c t.text p else setDescription c t.text p)
    | .faulty => .error (.lexical t)
    | _ => .error (.unexpected .text t)
  | .size =>
    match t.kind with
    | .quoted | .bare =>
      match Coercion.size t.text with
      | .ok n => .ok (setSize c n p)
      | .error e => .error (.badInteger e)
    | .faulty => .error (.lexical t)
    | _ => .error (.unexpected .value t)
  | .hash h =>
    match t.kind with
    | .quoted | .bare => .ok (setHash c h t.text p)
    | .faulty => .error (.lexical t)
    | _ => .error (.unexpected .value t)

def stepSkipping (c : Catalog) (depth : Nat) (p : Place) (t : Token) : State :=
  match t.kind, depth with
  | .openBrace, d => ⟨c, .skipping (d + 1) p⟩
  | .closeBrace, 0 => ⟨c, .at_ p⟩
  | .closeBrace, d + 1 => ⟨c, .skipping d p⟩
  | _, d => ⟨c, .skipping d p⟩

def stepOpening (c : Catalog) (p : Place) (t : Token) : Except Cause State :=
  match t.kind with
  | .openBrace => .ok ⟨c, .at_ p⟩
  | .faulty => .error (.lexical t)
  | _ => .error (.unexpected .openBrace t)

def step (s : State) (t : Token) : Except Cause State :=
  match s.mode with
  | .at_ p => .ok (stepAt s.catalog p t)
  | .opening p => stepOpening s.catalog p t
  | .value f p => stepValue s.catalog f p t
  | .skipping d p => .ok (stepSkipping s.catalog d p t)

/-- The last token: a catalog is complete only outside all blocks and at the end of the input. -/
def finish (s : State) (t : Token) : Except Cause Catalog :=
  match s.mode with
  | .opening p => (stepOpening s.catalog p t).map State.catalog
  | .value f p => (stepValue s.catalog f p t).map State.catalog
  | .at_ .top => if t.kind = .faulty then .error (.lexical t) else .ok s.catalog
  | _ => .error (if t.kind = .faulty then .lexical t else .unexpectedEnd)

def run (s : State) : List Token → Except (Nat × Cause) State
  | [] => .ok s
  | t :: ts =>
    match step s t with
    | .ok s' => run s' ts
    | .error e => .error (t.line, e)

def read (ts : List Token) (last : Token) : Except (Nat × Cause) Catalog :=
  match run .start ts with
  | .error e => .error e
  | .ok s =>
    match finish s last with
    | .ok c => .ok c
    | .error e => .error (last.line, e)

def parse (f : Feed) : Except (Nat × Cause) (Catalog × Bytes) :=
  let (ts, last, l) := (Lexer.ofReader (.ofFeed f)).tokens
  match read ts last with
  | .ok c => .ok (c.normalize, l.reader.meter.digest)
  | .error e => .error e

end RomLedger.Clr
