import RomLedger.Markup.Tape

/- A position among events. Events that were looked at, or put back, wait in a queue in front of the tape. A
   refusal carries the line that the tape had reached. -/
namespace RomLedger.Markup

structure Cursor where
  queue : List Event
  tape : Tape

abbrev Reading (α : Type) := StateT Cursor (Except (Nat × Fault)) α

namespace Cursor

def ofItems (items : List Item) : Cursor := ⟨[], .ofItems items⟩

def left (c : Cursor) : Nat := c.queue.length + c.tape.left

def refuse {α : Type} (f : Fault) : Reading α := fun c => .error (c.tape.line, f)

def orRefuse {α : Type} : Except Fault α → Reading α
  | .ok a => pure a
  | .error f => refuse f

def next : Reading Event := fun c =>
  match c.queue with
  | e :: rest => .ok (e, { c with queue := rest })
  | [] =>
    match c.tape.next with
    | (.ok e, t) => .ok (e, ⟨[], t⟩)
    | (.error m, t) => .error (t.line, .malformed m)

def peek : Reading Event := fun c =>
  match c.queue with
  | e :: _ => .ok (e, c)
  | [] =>
    match c.tape.next with
    | (.ok e, t) => .ok (e, ⟨[e], t⟩)
    | (.error m, t) => .error (t.line, .malformed m)

def putBack (es : List Event) : Reading Unit := fun c => .ok ((), { c with queue := es ++ c.queue })

def isNil (tags : List Tag) : Reading Bool := fun c => .ok (tags.any c.tape.scopes.isNil, c)

/-- Drops events up to the end tag that closes `depth + 1` elements of a name. Gives the events
behind it, or else the elements that are open when the events end. -/
def dropElement (name : Bytes) (depth : Nat) : List Event → List Event ⊕ Nat
  | [] => .inr (depth + 1)
  | .start t :: rest => dropElement name (if t.name = name then depth + 1 else depth) rest
  | .close n :: rest =>
    if n = name then
      match depth with
      | 0 => .inl rest
      | d + 1 => dropElement name d rest
    else dropElement name depth rest
  | _ :: rest => dropElement name depth rest

def skipOnTape (name : Bytes) : Nat → Tape → Except Malformed Unit × Tape
  | 0, t => (.ok (), t)
  | n + 1, t =>
    match t.skipElement name with
    | (.ok (), t) => skipOnTape name n t
    | r => r

def skipElement (name : Bytes) : Reading Unit := fun c =>
  match dropElement name 0 c.queue with
  | .inl rest => .ok ((), { c with queue := rest })
  | .inr depth =>
    match skipOnTape name depth c.tape with
    | (.ok (), t) => .ok ((), ⟨[], t⟩)
    | (.error m, t) => .error (t.line, .malformed m)

/-- Takes events, latest first on top of `taken`, up to the end tag that closes `depth + 1` elements
of a name, or up to the end. `budget` bounds the events. -/
def takeRest (name : Bytes) : Nat → Nat → List Event → Reading (List Event)
  | 0, _, taken => pure taken
  | budget + 1, depth, taken => do
    let e ← next
    match e, depth with
    | .ended, _ => pure (e :: taken)
    | .close n, 0 =>
      if n = name then pure (e :: taken) else takeRest name budget 0 (e :: taken)
    | .close n, d + 1 =>
      if n = name then takeRest name budget d (e :: taken)
      else takeRest name budget (d + 1) (e :: taken)
    | .start t, d => takeRest name budget (if t.name = name then d + 1 else d) (e :: taken)
    | .text _, d => takeRest name budget d (e :: taken)

def takeElement (t : Tag) (taken : List Event) : Reading (List Event) := do
  let _ ← next
  let c ← get
  takeRest t.name (c.left + 1) 0 (.start t :: taken)

end Cursor
end RomLedger.Markup
