/- Fixed-point text of binary fractions. A double is taken apart into an integer and a power of two, and the
   quotient is rounded exactly; a tie goes to the even neighbour. -/
namespace RomLedger.Decimal

def roundDiv (num den : Nat) : Nat :=
  let q := num / den
  let r := num % den
  if 2 * r < den then q
  else if den < 2 * r then q + 1
  else if q % 2 = 0 then q else q + 1

def leadingBit : Nat := 0x10000000000000

def isNegative (x : Float) : Bool := 0x8000000000000000 ≤ x.toBits.toNat

/-- The significand of a finite double without its sign, and the exponent of its unit, counted from 1. -/
def parts (x : Float) : Nat × Nat :=
  let bits := x.toBits.toNat
  let exponent := bits / leadingBit % 0x800
  let low := bits % leadingBit
  if exponent = 0 then (low, 1) else (low + leadingBit, exponent)

def fraction (x : Float) : Nat × Nat :=
  let (m, e) := parts x
  if 1075 ≤ e then (m * Nat.pow 2 (e - 1075), 1) else (m, Nat.pow 2 (1075 - e))

def tenths (n : Nat) : String := s!"{n / 10}.{n % 10}"

def onePlace (x : Float) : String :=
  let (num, den) := fraction x
  tenths (roundDiv (10 * num) den)

end RomLedger.Decimal
