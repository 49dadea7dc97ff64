import RomLedger.Bytes

/- The SHA-1 digest of a byte string: twenty bytes. A hasher takes the bytes as they come, holds what does not
   fill a block yet, and gives the digest of all of them at the end. -/
namespace RomLedger.Sha1

structure State where
  a : UInt32
  b : UInt32
  c : UInt32
  d : UInt32
  e : UInt32
  deriving DecidableEq

def start : State := ⟨0x67452301, 0xEFCDAB89, 0x98BADCFE, 0x10325476, 0xC3D2E1F0⟩

def rotate (x : UInt32) (n : UInt32) : UInt32 := (x <<< n) ||| (x >>> (32 - n))

def word (a b c d : UInt8) : UInt32 :=
  (a.toUInt32 <<< 24) ||| (b.toUInt32 <<< 16) ||| (c.toUInt32 <<< 8) ||| d.toUInt32

def schedule (block : Array UInt32) : Array UInt32 :=
  (List.range 64).foldl
    (fun w i => w.push
      (rotate (w.getD (i + 13) 0 ^^^ w.getD (i + 8) 0 ^^^ w.getD (i + 2) 0 ^^^ w.getD i 0) 1))
    block

def round (s : State) (i : Nat) (w : UInt32) : State :=
  let (f, k) : UInt32 × UInt32 :=
    if i < 20 then ((s.b &&& s.c) ||| (~~~s.b &&& s.d), 0x5A827999)
    else if i < 40 then (s.b ^^^ s.c ^^^ s.d, 0x6ED9EBA1)
    else if i < 60 then ((s.b &&& s.c) ||| (s.b &&& s.d) ||| (s.c &&& s.d), 0x8F1BBCDC)
    else (s.b ^^^ s.c ^^^ s.d, 0xCA62C1D6)
  ⟨rotate s.a 5 + f + s.e + k + w, s.a, rotate s.b 30, s.c, s.d⟩

def compress (s : State) (block : Array UInt32) : State :=
  let t := (schedule block).foldl (fun (p : State × Nat) w => (round p.1 p.2 w, p.2 + 1)) (s, 0) |>.1
  ⟨s.a + t.a, s.b + t.b, s.c + t.c, s.d + t.d, s.e + t.e⟩

/-- Feeds the big-endian words of the bytes to `compress`, sixteen at a time; `held` holds those that
wait. -/
def absorb : State → Array UInt32 → Bytes → State
  | s, held, a :: b :: c :: d :: rest =>
    if held.size = 15 then absorb (compress s (held.push (word a b c d))) #[] rest
    else absorb s (held.push (word a b c d)) rest
  | s, _, _ => s

def padding (length : Nat) : Bytes :=
  0x80 :: List.replicate ((119 - length % 64) % 64) 0 ++ (Words.encode 8 (8 * length)).reverse

def spread (w : UInt32) : Bytes := (Words.encode 4 w.toNat).reverse

def State.bytes (s : State) : Bytes :=
  spread s.a ++ spread s.b ++ spread s.c ++ spread s.d ++ spread s.e

def digest (b : Bytes) : Bytes := (absorb start #[] (b ++ padding b.length)).bytes

/-- A digest on the way: the state behind the last full block, the words of the next one, the bytes of a word
that is not full, and how many bytes there were in all. -/
structure Hasher where
  state : State
  held : Array UInt32
  loose : Bytes
  length : Nat

namespace Hasher

def fresh : Hasher := ⟨start, #[], [], 0⟩

def takeWord (s : State) (held : Array UInt32) (w : UInt32) : State × Array UInt32 :=
  if held.size = 15 then (compress s (held.push w), #[]) else (s, held.push w)

def push (h : Hasher) (d : UInt8) : Hasher :=
  match h.loose with
  | [a, b, c] =>
    let taken := takeWord h.state h.held (word a b c d)
    ⟨taken.1, taken.2, [], h.length + 1⟩
  | few => { h with loose := few ++ [d], length := h.length + 1 }

def update (h : Hasher) (b : Bytes) : Hasher := b.foldl push h

def finish (h : Hasher) : Bytes := (h.update (padding h.length)).state.bytes

end Hasher

end RomLedger.Sha1
