/- White space as Unicode counts it (the property White_Space, 25 characters), trimming by it, and cutting a
   text at every occurrence of a character, which gives one part more than there are occurrences. -/
namespace RomLedger.Text

/-- Closed ranges of code points, ascending and apart. -/
def blankRanges : List (Nat × Nat) :=
  [(0x09, 0x0D), (0x20, 0x20), (0x85, 0x85), (0xA0, 0xA0), (0x1680, 0x1680), (0x2000, 0x200A),
   (0x2028, 0x2029), (0x202F, 0x202F), (0x205F, 0x205F), (0x3000, 0x3000)]

def isBlank (c : Char) : Bool := blankRanges.any fun r => r.1 ≤ c.toNat && c.toNat ≤ r.2

def trimList (cs : List Char) : List Char :=
  ((cs.dropWhile isBlank).reverse.dropWhile isBlank).reverse

def trim (s : String) : String := String.ofList (trimList s.toList)

def split (at_ : Char) : List Char → List (List Char)
  | [] => [[]]
  | c :: rest =>
    if c = at_ then [] :: split at_ rest
    else
      match split at_ rest with
      | [] => [[c]]
      | s :: more => (c :: s) :: more

end RomLedger.Text
