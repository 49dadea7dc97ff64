import RomLedger.Decimal.Fixed
import RomLedger.Depot.Basic
import RomLedger.Json.Value

/- The roots of a depot as a table and as JSON. A name that is too long is cut, sizes are shown in the largest
   unit that they reach, and columns are filled up with blanks. -/
namespace RomLedger.Command

def padLeft (n : Nat) (s : String) : String :=
  String.ofList (List.replicate (n - s.length) ' ') ++ s

def padRight (n : Nat) (s : String) : String :=
  s ++ String.ofList (List.replicate (n - s.length) ' ')

def shorten (n : Nat) (s : String) : String :=
  if s.length ≤ n then s else String.ofList (s.toList.take (n - 3)) ++ "..."

def kilo : UInt64 := 1024

def units : List (UInt64 × String) :=
  [(kilo * kilo * kilo * kilo, "TB"), (kilo * kilo * kilo, "GB"), (kilo * kilo, "MB"), (kilo, "KB")]

/-- A number of bytes with one place. The number is taken as a double, which the units leave exact. -/
def bytesShown (n : UInt64) : String :=
  match units.find? fun u => u.1 ≤ n with
  | some (size, unit) => Decimal.onePlace (n.toFloat / size.toFloat) ++ " " ++ unit
  | none => s!"{n.toNat} B"

def nearestFloat (n : Int) : Float :=
  let x := (UInt64.ofNat n.natAbs).toFloat
  if n < 0 then -x else x

/-- How full a root is; a root without room is not said to be full at all. -/
def percent (size maxSize : Int) : Float :=
  if 0 < maxSize then nearestFloat size / nearestFloat maxSize * 100 else 0

def percentShown (x : Float) : String :=
  (if Decimal.isNegative x then "-" else "") ++ Decimal.onePlace x

def nameWidth : Nat := 50
def sizeWidth : Nat := 10

def tableHead : String :=
  padRight nameWidth "Root" ++ " " ++ padLeft sizeWidth "Size" ++ " " ++ padLeft sizeWidth "Max"
    ++ " " ++ padLeft 6 "Used" ++ "  Bloom"

def tableRow (r : Root) : String :=
  padRight nameWidth (shorten nameWidth r.path.shown) ++ " "
    ++ padLeft sizeWidth (bytesShown (UInt64.ofNat r.size.toNat)) ++ " "
    ++ padLeft sizeWidth (bytesShown (UInt64.ofNat r.maxSize.toNat)) ++ " "
    ++ padLeft 5 (percentShown (percent r.size r.maxSize)) ++ "%  "
    ++ (if r.isReady then "ready" else "not ready") ++ (if r.isFull then "  FULL" else "")

def table (d : Depot) : List String := tableHead :: d.roots.map tableRow

def rootValue (r : Root) : Json.Value :=
  .object [("path", .text r.path.shown), ("size", .integer r.size), ("max_size", .integer r.maxSize),
    ("bloom_ready", .bool r.isReady), ("touched", .bool r.touched)]

def depotValue (d : Depot) : Json.Value := .list (d.roots.map rootValue)

end RomLedger.Command
