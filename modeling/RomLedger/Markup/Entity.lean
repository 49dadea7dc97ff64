import RomLedger.Markup.Fault

/- Entities in texts and attribute values: five names and numbered characters. -/
namespace RomLedger.Markup.Entity

def named : List (String × Char) :=
  [("lt", '<'), ("gt", '>'), ("amp", '&'), ("apos", '\''), ("quot", '"')]

def numbered (digits : List Char) : Except CharFault Char :=
  let read (base : Nat) (cs : List Char) : Except CharFault Nat :=
    match cs with
    | '+' :: _ | '-' :: _ => .error .sign
    | _ =>
      match Numeral.natural base Numeral.max32 cs with
      | .ok n => .ok n
      | .error f => .error (.number f)
  let code := match digits with
    | 'x' :: rest => read 16 rest
    | _ => read 10 digits
  match code with
  | .error f => .error f
  | .ok 0 => .error .zero
  | .ok n => if n.isValidChar then .ok (Char.ofNat n) else .error (.notChar n)

def resolve (first last : Nat) (name : List Char) : Except EntityFault Char :=
  match name with
  | '#' :: digits =>
    match numbered digits with
    | .ok c => .ok c
    | .error f => .error (.char f)
  | _ =>
    match named.lookup (String.ofList name) with
    | some c => .ok c
    | none => .error (.unknown first last (String.ofList name))

/-- Replaces entities. `at_` is the byte position of the next character; an entity that is open
comes with the position of its ampersand and its name so far, latest character first. -/
def replaceFrom : Option (Nat × List Char) → Nat → List Char → Except EntityFault (List Char)
  | none, _, [] => .ok []
  | some (first, _), at_, [] => .error (.unterminated first at_)
  | none, at_, c :: rest =>
    if c = '&' then replaceFrom (some (at_, [])) (at_ + 1) rest
    else (replaceFrom none (at_ + c.utf8Size) rest).map (c :: ·)
  | some (first, name), at_, c :: rest =>
    if c = ';' then
      match resolve (first + 1) at_ name.reverse with
      | .ok d => (replaceFrom none (at_ + 1) rest).map (d :: ·)
      | .error f => .error f
    else if c = '&' then .error (.unterminated first at_)
    else replaceFrom (some (first, c :: name)) (at_ + c.utf8Size) rest

def verbatim (b : Bytes) : Except Malformed String :=
  match Utf8.decode b with
  | .error f => .error (.encoding f)
  | .ok s => .ok s

def text (b : Bytes) : Except Malformed String :=
  match verbatim b with
  | .error f => .error f
  | .ok s =>
    match replaceFrom none 0 s.toList with
    | .error f => .error (.entity f)
    | .ok cs => .ok (String.ofList cs)

end RomLedger.Markup.Entity
