import RomLedger.Clr.Statement
import RomLedger.Disk.Basic
import RomLedger.Markup.Document

/- Catalog files. The content tells the format: a file whose beginning is a markup declaration is read as
   markup, and any other as text. -/
namespace RomLedger.Source

def sniffLength : Nat := 256
def declaration : Bytes := Bytes.ofString "<?xml"

def isMarkup (b : Bytes) : Bool := declaration.isPrefixOf (Bytes.withoutMark (b.take sniffLength))

inductive Cause where
  | text (c : Clr.Cause)
  | markup (c : Markup.Cause)
  | disk (f : Disk.Fault)
  deriving DecidableEq, Repr

def Cause.message : Cause → String
  | .text c => c.message
  | .markup c => c.message
  | .disk f => f.message

def Cause.causes : Cause → List String
  | .text c => c.causes
  | .markup c => c.causes
  | .disk _ => []

/-- A cause with its file and the line reached, which is zero for a file that cannot be opened. -/
structure Refusal where
  path : Path
  line : Nat
  cause : Cause
  deriving DecidableEq, Repr

def Refusal.message (r : Refusal) : String := located r.path.shown r.line r.cause.message

def Refusal.chain (r : Refusal) : List String := r.message :: r.cause.message :: r.cause.causes

def parse (p : Path) (b : Bytes) : Except Refusal (Catalog × Bytes) :=
  if isMarkup b then
    (Markup.parse (.whole b)).mapError fun e => ⟨p, e.1, .markup e.2⟩
  else (Clr.parse (.whole b)).mapError fun e => ⟨p, e.1, .text e.2⟩

variable {σ : Type}

def parseFile (d : Disk σ) (p : Path) : Except Refusal (Catalog × Bytes) :=
  match d.read p with
  | .error f => .error ⟨p, 0, .disk f⟩
  | .ok b => parse p b

end RomLedger.Source
