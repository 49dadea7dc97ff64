/- Decimal numerals with an optional sign, read into a bounded range. The fault is the first one from the
   left: a character that is no digit, or the digit at which the value leaves the range. -/
namespace RomLedger.Numeral

inductive Fault where
  | empty
  | invalidDigit
  | tooLarge
  | tooSmall
  deriving DecidableEq, Repr

def Fault.message : Fault → String
  | .empty => "cannot parse integer from empty string"
  | .invalidDigit => "invalid digit found in string"
  | .tooLarge => "number too large to fit in target type"
  | .tooSmall => "number too small to fit in target type"

def digit? (base : Nat) (c : Char) : Option Nat :=
  let n := c.toNat
  let d := if 48 ≤ n ∧ n ≤ 57 then n - 48
    else if 97 ≤ n ∧ n ≤ 122 then n - 87
    else if 65 ≤ n ∧ n ≤ 90 then n - 55
    else base
  if d < base then some d else none

def digits (base limit : Nat) (beyond : Fault) : Nat → List Char → Except Fault Nat
  | acc, [] => .ok acc
  | acc, c :: rest =>
    match digit? base c with
    | none => .error .invalidDigit
    | some d =>
      if base * acc + d ≤ limit then digits base limit beyond (base * acc + d) rest else .error beyond

def magnitude (base limit : Nat) (beyond : Fault) : List Char → Except Fault Nat
  | [] => .error .invalidDigit
  | cs => digits base limit beyond 0 cs

def natural (base limit : Nat) : List Char → Except Fault Nat
  | [] => .error .empty
  | '+' :: rest => magnitude base limit .tooLarge rest
  | cs => magnitude base limit .tooLarge cs

/-- A number from `-limit - 1` to `limit`; one sign may stand in front. -/
def integer (limit : Nat) : List Char → Except Fault Int
  | [] => .error .empty
  | '+' :: rest => (magnitude 10 limit .tooLarge rest).map Int.ofNat
  | '-' :: rest => (magnitude 10 (limit + 1) .tooSmall rest).map fun n => -(n : Int)
  | cs => (magnitude 10 limit .tooLarge cs).map Int.ofNat

def max31 : Nat := 0x7FFFFFFF
def max32 : Nat := 0xFFFFFFFF
def max63 : Nat := 0x7FFFFFFFFFFFFFFF
def max64 : Nat := 0xFFFFFFFFFFFFFFFF

end RomLedger.Numeral
