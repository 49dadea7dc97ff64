import RomLedger.Decimal.Fixed

/- The shortest decimal that reads back as a given double. -/
namespace RomLedger.Decimal

structure Scaled where
  digits : Nat
  exponent : Int
  deriving DecidableEq, Repr

/-- A positive double in quarters of its last place: its value and the two ends of its interval are
these multiples of a power of two. The ends belong to the interval when the significand is even. -/
structure Interval where
  low : Nat
  value : Nat
  high : Nat
  twos : Int
  closed : Bool
  deriving DecidableEq, Repr

def Interval.ofFloat (x : Float) : Interval :=
  let (m, e) := parts x
  { low := if m = leadingBit ∧ 1 < e then 4 * m - 1 else 4 * m - 2
    value := 4 * m
    high := 4 * m + 2
    twos := Int.ofNat e - 1077
    closed := m % 2 = 0 }

def power (base a : Nat) (e : Int) : Nat × Nat :=
  if 0 ≤ e then (a * Nat.pow base e.toNat, 1) else (a, Nat.pow base (-e).toNat)

def compareFractions (x y : Nat × Nat) : Ordering := compare (x.1 * y.2) (y.1 * x.2)

def Interval.contains (i : Interval) (s : Scaled) : Bool :=
  let x := power 10 s.digits s.exponent
  let below := compareFractions (power 2 i.low i.twos) x
  let above := compareFractions x (power 2 i.high i.twos)
  if i.closed then below.isLE && above.isLE else below == .lt && above == .lt

def Interval.floorOver (i : Interval) (e : Int) : Nat :=
  let (a, b) := power 2 i.value i.twos
  let (c, d) := power 10 1 e
  a * d / (b * c)

def Interval.nearer (i : Interval) (s : Scaled) : Scaled :=
  let middle := power 10 (10 * s.digits + 5) (s.exponent - 1)
  let next : Scaled := { s with digits := s.digits + 1 }
  match compareFractions (power 2 i.value i.twos) middle with
  | .lt => s
  | .gt => next
  | .eq => if s.digits % 2 = 0 then s else next

def Interval.onGrid (i : Interval) (e : Int) : Option Scaled :=
  let below : Scaled := ⟨i.floorOver e, e⟩
  let above : Scaled := ⟨i.floorOver e + 1, e⟩
  match i.contains below, i.contains above with
  | true, true => some (i.nearer below)
  | true, false => some below
  | false, true => some above
  | false, false => none

def Interval.search (i : Interval) : Nat → Int → Scaled
  | 0, e => ⟨i.floorOver e, e⟩
  | steps + 1, e => (i.onGrid e).getD (i.search steps (e - 1))

def Scaled.reduced (s : Scaled) : Nat → Scaled
  | 0 => s
  | steps + 1 =>
    if s.digits % 10 = 0 ∧ s.digits ≠ 0 then Scaled.reduced ⟨s.digits / 10, s.exponent + 1⟩ steps
    else s

def shortest (x : Float) : Scaled := ((Interval.ofFloat x).search 634 309).reduced 400

/-- The text of a finite double: positional up to sixteen digits before the point and five zeros behind
it, with an exponent otherwise, and always with a point or an exponent. -/
def Scaled.shown (s : Scaled) : String :=
  let ds := Nat.toDigits 10 s.digits
  let n : Int := ds.length
  let point := n + s.exponent
  if 0 ≤ s.exponent ∧ point ≤ 16 then
    String.ofList (ds ++ List.replicate s.exponent.toNat '0' ++ ['.', '0'])
  else if 0 < point ∧ point ≤ 16 then
    String.ofList (ds.take point.toNat ++ ['.'] ++ ds.drop point.toNat)
  else if -5 < point ∧ point ≤ 0 then
    String.ofList (['0', '.'] ++ List.replicate (-point).toNat '0' ++ ds)
  else
    let fraction := if ds.length = 1 then [] else '.' :: ds.drop 1
    String.ofList (ds.take 1 ++ fraction) ++ "e" ++ toString (point - 1)

def shownFloat (x : Float) : String :=
  let sign := if isNegative x then "-" else ""
  if x == 0 then sign ++ "0.0" else sign ++ (shortest x).shown

end RomLedger.Decimal
