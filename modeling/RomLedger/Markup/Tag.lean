import RomLedger.Markup.Fault

/- Start tags: a name and, behind it, attributes. Attributes are read in order, each with its own fault if it
   has one; after a fault reading goes on where the next attribute may begin. -/
namespace RomLedger.Markup

def isBlank (b : UInt8) : Bool := b == 32 || b == 9 || b == 10 || b == 13

structure Tag where
  name : Bytes
  rest : Bytes
  deriving DecidableEq, Repr

def Tag.ofContent (b : Bytes) : Tag :=
  ⟨b.takeWhile fun c => !isBlank c, b.dropWhile fun c => !isBlank c⟩

def colon : UInt8 := 58

def localName (name : Bytes) : Bytes :=
  match name.dropWhile (· != colon) with
  | [] => name
  | _ :: rest => rest

def prefix? (name : Bytes) : Option Bytes :=
  if name.contains colon then some (name.takeWhile (· != colon)) else none

structure Attribute where
  key : Bytes
  value : Bytes
  deriving DecidableEq, Repr

namespace Attribute

def equals : UInt8 := 61
def isQuote (b : UInt8) : Bool := b == 34 || b == 39

/-- What a byte run yields: an attribute or a fault, and where the next one may begin. -/
structure Reading where
  found : Except AttributeFault (Nat × Attribute)
  next : Option (Nat × Bytes)

def resume (at_ : Nat) (b : Bytes) : Option (Nat × Bytes) :=
  let skipped := (b.takeWhile fun c => !isBlank c).length
  if b.length = skipped then none else some (at_ + skipped, b.drop skipped)

def reading (first at_ : Nat) (key b : Bytes) : Reading :=
  let blanks := (b.takeWhile isBlank).length
  match b.drop blanks with
  | [] => ⟨.error (.noValue (at_ + blanks)), none⟩
  | q :: rest =>
    if isQuote q then
      let v := rest.takeWhile (· != q)
      let end_ := at_ + blanks + 1 + v.length
      match rest.drop v.length with
      | [] => ⟨.error (.unclosed end_ q), none⟩
      | _ :: more => ⟨.ok (first, ⟨key, v⟩), some (end_ + 1, more)⟩
    else ⟨.error (.noQuote (at_ + blanks)), resume (at_ + blanks) (q :: rest)⟩

def atKey (at_ : Nat) (c : UInt8) (rest : Bytes) : Reading :=
  let more := rest.takeWhile fun d => !(d == equals || isBlank d)
  let key := c :: more
  let after := at_ + key.length
  let gap := rest.drop more.length
  let blanks := (gap.takeWhile isBlank).length
  match gap.drop blanks with
  | [] => ⟨.error (.noEquals (after + blanks)), none⟩
  | d :: tail =>
    if d == equals then reading at_ (after + blanks + 1) key tail
    else ⟨.error (.noEquals (after + blanks)), some (after + blanks, d :: tail)⟩

/-- All attributes behind a name. `seen` lists the keys before; a key that comes again is a fault.
`budget` bounds the attributes still to be read, each of which takes at least one byte. -/
def readFrom (seen : List (Bytes × Nat)) :
    Nat → Nat → Bytes → List (Except AttributeFault Attribute)
  | 0, _, _ => []
  | budget + 1, at_, b =>
    let blanks := (b.takeWhile isBlank).length
    match b.drop blanks with
    | [] => []
    | c :: rest =>
      let start := at_ + blanks
      let key := c :: rest.takeWhile fun d => !(d == equals || isBlank d)
      let r := atKey start c rest
      let unkeyed := match r.found with
        | .error (.noEquals _) => true
        | _ => false
      match unkeyed, seen.lookup key with
      | false, some first =>
        .error (.duplicated start first) :: match r.next with
          | some (p, more) => readFrom seen budget p more
          | none => []
      | _, _ =>
        let seen := if unkeyed then seen else (key, start) :: seen
        (r.found.map Prod.snd) :: match r.next with
          | some (p, more) => readFrom seen budget p more
          | none => []

end Attribute

def Tag.attributes (t : Tag) : List (Except AttributeFault Attribute) :=
  Attribute.readFrom [] (t.rest.length + 1) t.name.length t.rest

def Tag.plainAttributes (t : Tag) : List Attribute :=
  let rec go (budget at_ : Nat) (b : Bytes) : List Attribute :=
    match budget with
    | 0 => []
    | budget + 1 =>
      let blanks := (b.takeWhile isBlank).length
      match b.drop blanks with
      | [] => []
      | c :: rest =>
        match Attribute.atKey (at_ + blanks) c rest with
        | ⟨.ok (_, a), some (p, more)⟩ => a :: go budget p more
        | _ => []
  go (t.rest.length + 1) t.name.length t.rest

end RomLedger.Markup
