import RomLedger.Bytes

/- UTF-8 read byte by byte. Bytes are cut into characters and broken pieces, a broken piece being a longest
   run that some character could have started with. -/
namespace RomLedger.Utf8

inductive Piece where
  | char (c : Char)
  | broken (bytes : Bytes)
  | cut (bytes : Bytes)
  deriving DecidableEq, Repr

/-- A character begun: what was read (latest first), how many bytes it still needs, what the next
one may be, and the bits gathered so far. -/
structure Open where
  read : Bytes
  need : Nat
  low : UInt8
  high : UInt8
  bits : Nat
  deriving DecidableEq, Repr

def first (b : UInt8) : Piece ⊕ Open :=
  let n := b.toNat
  if n ≤ 0x7F then .inl (.char (Char.ofNat n))
  else if 0xC2 ≤ n ∧ n ≤ 0xDF then .inr ⟨[b], 1, 0x80, 0xBF, n - 0xC0⟩
  else if n = 0xE0 then .inr ⟨[b], 2, 0xA0, 0xBF, 0⟩
  else if n = 0xED then .inr ⟨[b], 2, 0x80, 0x9F, 0xD⟩
  else if 0xE1 ≤ n ∧ n ≤ 0xEF then .inr ⟨[b], 2, 0x80, 0xBF, n - 0xE0⟩
  else if n = 0xF0 then .inr ⟨[b], 3, 0x90, 0xBF, 0⟩
  else if 0xF1 ≤ n ∧ n ≤ 0xF3 then .inr ⟨[b], 3, 0x80, 0xBF, n - 0xF0⟩
  else if n = 0xF4 then .inr ⟨[b], 3, 0x80, 0x8F, 4⟩
  else .inl (.broken [b])

def cutFrom : Option Open → Bytes → List Piece
  | none, [] => []
  | some o, [] => [.cut o.read.reverse]
  | none, b :: rest =>
    match first b with
    | .inl p => p :: cutFrom none rest
    | .inr o => cutFrom (some o) rest
  | some o, b :: rest =>
    if o.low ≤ b ∧ b ≤ o.high then
      let bits := 64 * o.bits + (b.toNat - 0x80)
      if o.need = 1 then .char (Char.ofNat bits) :: cutFrom none rest
      else cutFrom (some ⟨b :: o.read, o.need - 1, 0x80, 0xBF, bits⟩) rest
    else
      .broken o.read.reverse :: match first b with
        | .inl p => p :: cutFrom none rest
        | .inr o' => cutFrom (some o') rest

def pieces (b : Bytes) : List Piece := cutFrom none b

def Piece.shown : Piece → Char
  | .char c => c
  | .broken _ | .cut _ => Char.ofNat 0xFFFD

def lossy (b : Bytes) : String := String.ofList ((pieces b).map Piece.shown)

inductive Fault where
  | broken (at_ count : Nat)
  | cut (at_ : Nat)
  deriving DecidableEq, Repr

def Fault.message : Fault → String
  | .broken p n => s!"invalid utf-8 sequence of {n} bytes from index {p}"
  | .cut p => s!"incomplete utf-8 byte sequence from index {p}"

def gather (at_ : Nat) : List Piece → Except Fault (List Char)
  | [] => .ok []
  | .char c :: rest => (gather (at_ + c.utf8Size) rest).map (c :: ·)
  | .broken b :: _ => .error (.broken at_ b.length)
  | .cut _ :: _ => .error (.cut at_)

def decode (b : Bytes) : Except Fault String := (gather 0 (pieces b)).map String.ofList

end RomLedger.Utf8
