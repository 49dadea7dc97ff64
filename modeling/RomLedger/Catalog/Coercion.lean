import RomLedger.Bytes.Hex
import RomLedger.Text.Basic
import RomLedger.Text.Numeral
import RomLedger.Text.Quoted

/- How the text of a size and of a hash is understood. A lone dash stands for size zero and for an absent
   hash. A hash shorter than its canonical length lacks leading zeros, which are put back. -/
namespace RomLedger.Coercion

structure BadInteger where
  value : String
  fault : Numeral.Fault
  deriving DecidableEq, Repr

structure BadHex where
  value : String
  fault : Hex.Fault
  deriving DecidableEq, Repr

def BadInteger.message (e : BadInteger) : String :=
  "invalid integer value " ++ Quoted.encode e.value ++ ": " ++ e.fault.message

def BadHex.message (e : BadHex) : String :=
  "invalid hex value " ++ Quoted.encode e.value ++ ": " ++ e.fault.message

def size (s : String) : Except BadInteger UInt64 :=
  if s = "-" then .ok 0
  else
    match Numeral.natural 10 Numeral.max64 s.toList with
    | .ok n => .ok (UInt64.ofNat n)
    | .error e => .error ⟨s, e⟩

def crcDigits : Nat := 8
def md5Digits : Nat := 32
def sha1Digits : Nat := 40

/-- Zeros in front, up to `width` characters. -/
def padded (width : Nat) (s : String) : Bytes :=
  List.replicate (width - s.length) 48 ++ Bytes.ofString s

def hash (width : Nat) (s : String) : Except BadHex (Option Bytes) :=
  let t := Text.trim s
  if t = "-" ∨ t = "" then .ok none
  else
    match Hex.decode (padded width t) with
    | .ok b => .ok (some b)
    | .error e => .error ⟨t, e⟩

end RomLedger.Coercion
