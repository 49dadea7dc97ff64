import RomLedger.Markup.Datafile

/- A whole markup catalog: the first event must be an element, which is the root whatever its name. What
   follows the root is not looked at, but it belongs to the digest. -/
namespace RomLedger.Markup

inductive Cause where
  | markup (f : Fault)
  | io
  deriving DecidableEq, Repr

def Cause.message : Cause → String
  | .markup f => "xml parsing error: " ++ f.message
  | .io => ioText

/-- The messages of what lies behind a cause, outermost first. -/
def Cause.causes : Cause → List String
  | .markup f => f.message :: f.causes
  | .io => []

def root : Reading CatalogDraft := do
  match ← Cursor.next with
  | .start t => Schema.catalog.read t
  | .text s => Cursor.refuse (.wrongType s "struct XmlDat")
  | _ => Cursor.refuse .unexpectedEnd

def parse (f : Feed) : Except (Nat × Cause) (Catalog × Bytes) :=
  let (items, scanner) := (Scanner.ofReader (.ofFeed f)).pieces
  match root (.ofItems items) with
  | .error (line, fault) => .error (line, .markup fault)
  | .ok (draft, _) =>
    let rest := scanner.reader.drain
    match rest.stop with
    | .failed => .error (rest.reader.meter.line, .io)
    | _ => .ok (draft.toCatalog.normalize, rest.reader.meter.digest)

end RomLedger.Markup
