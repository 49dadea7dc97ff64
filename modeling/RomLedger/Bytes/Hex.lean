import RomLedger.Bytes

/- Hexadecimal text. Writing gives lowercase digits, two for each byte; reading takes either case and says
   where the first fault lies. A text of odd length is faulted at its last position, whatever else is wrong
   with it. -/
namespace RomLedger.Hex

inductive Fault where
  | symbol (at_ : Nat)
  | length (at_ : Nat)
  deriving DecidableEq, Repr

def Fault.message : Fault → String
  | .symbol p => s!"invalid symbol at {p}"
  | .length p => s!"invalid length at {p}"

def digit (n : Nat) : Char := if n < 10 then Char.ofNat (48 + n) else Char.ofNat (87 + n)

def encodeList : Bytes → List Char
  | [] => []
  | b :: rest => digit (b.toNat / 16) :: digit (b.toNat % 16) :: encodeList rest

def encode (b : Bytes) : String := String.ofList (encodeList b)

def nibble? (b : UInt8) : Option Nat :=
  if 48 ≤ b ∧ b ≤ 57 then some (b.toNat - 48)
  else if 97 ≤ b ∧ b ≤ 102 then some (b.toNat - 87)
  else if 65 ≤ b ∧ b ≤ 70 then some (b.toNat - 55)
  else none

/-- Reads pairs of digits; `at_` is the position of the first one. -/
def decodePairs (at_ : Nat) : Bytes → Except Fault Bytes
  | [] => .ok []
  | [_] => .error (.length at_)
  | h :: l :: rest =>
    match nibble? h, nibble? l with
    | some x, some y => (decodePairs (at_ + 2) rest).map (UInt8.ofNat (16 * x + y) :: ·)
    | none, _ => .error (.symbol at_)
    | some _, none => .error (.symbol (at_ + 1))

def decode (b : Bytes) : Except Fault Bytes :=
  if b.length % 2 = 1 then .error (.length (b.length - 1)) else decodePairs 0 b

end RomLedger.Hex
