import RomLedger.Disk.Basic
import RomLedger.Text.Basic
import RomLedger.Text.Numeral

/- The size checkpoint of a depot root: one decimal number in a file of its own, written in place. Where there
   is none yet, zero is written and taken. -/
namespace RomLedger.Generation

def fileName : String := "romdepot.generation"

def file (root : Path) : Path := root.join fileName

inductive Fault where
  | unreadable (p : Path) (f : Disk.Fault)
  | notText (p : Path)
  | invalid (p : Path) (f : Numeral.Fault)
  | unwritable (p : Path) (f : Disk.Fault)
  deriving DecidableEq, Repr

def Fault.chain : Fault → List String
  | .unreadable p f => ["Unable to read generation file: " ++ p.shown, f.message]
  | .notText p =>
    ["Unable to read generation file: " ++ p.shown, "stream did not contain valid UTF-8"]
  | .invalid p f => ["Invalid generation file: " ++ p.shown, f.message]
  | .unwritable p f => ["Unable to write generation file: " ++ p.shown, f.message]

def render (size : Int) : Bytes := Bytes.ofString (toString size)

/-- The number in a checkpoint, outer white space aside. -/
def parse (text : String) : Except Numeral.Fault Int :=
  Numeral.integer Numeral.max63 (Text.trimList text.toList)

variable {σ : Type}

def write (d : Disk σ) (root : Path) (size : Int) : Except Fault Unit × Disk σ :=
  let (result, d) := d.write (file root) (render size)
  (result.mapError (.unwritable (file root)), d)

def read (d : Disk σ) (root : Path) : Except Fault Int × Disk σ :=
  if d.fileExists (file root) then
    (match d.read (file root) with
      | .error f => .error (.unreadable (file root) f)
      | .ok b =>
        match Utf8.decode b with
        | .error _ => .error (.notText (file root))
        | .ok text => (parse text).mapError (.invalid (file root)),
     d)
  else
    let (result, d) := write d root 0
    (result.map fun _ => 0, d)

end RomLedger.Generation
