import RomLedger.Markup.Cursor

/- How the elements of one kind are read into a value: attributes first and in order, then children.
   Attributes and children are known by local name; those that no field asks for are skipped unseen. -/
namespace RomLedger.Markup

inductive Slot (α : Type) where
  | single (read : Tag → Reading (α → α))
  | list (kind : String) (read : Tag → Reading (α → α))

structure Schema (α : Type) where
  blank : α
  attribute? : String → Option (Bytes → Except Fault (α → α))
  child? : String → Option (Slot α)

namespace Schema

def text {α : Type} (set : String → α → α) (value : Bytes) : Except Fault (α → α) :=
  match Entity.text value with
  | .ok s => .ok (set s)
  | .error m => .error (.malformed m)

def number {α : Type} (set : UInt64 → α → α) (value : Bytes) : Except Fault (α → α) :=
  match Entity.verbatim value with
  | .error m => .error (.malformed m)
  | .ok s =>
    match Numeral.natural 10 Numeral.max64 s.toList with
    | .ok n => .ok (set (UInt64.ofNat n))
    | .error _ => .error (.wrongType s "u64")

def fieldName (key : Bytes) : Bytes := if (Scopes.bound? key).isSome then key else localName key

def readAttributes {α : Type} (s : Schema α) :
    List String → α → List (Except AttributeFault Attribute) → Except Fault α
  | _, a, [] => .ok a
  | _, _, .error f :: _ => .error (.malformed (.attribute_ f))
  | seen, a, .ok x :: rest =>
    match Entity.verbatim (fieldName x.key) with
    | .error m => .error (.malformed m)
    | .ok key =>
      match s.attribute? key with
      | none => readAttributes s seen a rest
      | some read =>
        if seen.contains key then .error (.duplicateField ("@" ++ key))
        else
          match read x.value with
          | .ok set => readAttributes s (key :: seen) (set a) rest
          | .error f => .error f

def leaf {α : Type} (set : String → α → α) (t : Tag) : Reading (α → α) := do
  match ← Cursor.next with
  | .close _ => pure (set "")
  | .start child => Cursor.refuse (.unexpectedStart child.name)
  | .ended => Cursor.refuse (.malformed (Tape.missingEnd t.name))
  | .text s =>
    match ← Cursor.next with
    | .close _ => pure (set s)
    | .start child => Cursor.refuse (.unexpectedStart child.name)
    | _ => Cursor.refuse (.malformed (Tape.missingEnd t.name))

/-- The siblings of a list up to the end of their parent. `aside` holds what was passed between them,
latest first; `budget` bounds the siblings. -/
def readList {α : Type} (kind : String) (read : Tag → Reading (α → α)) (parent : Tag)
    (name : Bytes) : Nat → List Event → α → Reading α
  | 0, _, _ => Cursor.refuse .unexpectedEnd
  | budget + 1, aside, a => do
    match ← Cursor.peek with
    | .start t =>
      if t.name = name then
        let _ ← Cursor.next
        let set ← read t
        readList kind read parent name budget aside (set a)
      else readList kind read parent name budget (← Cursor.takeElement t aside) a
    | .text s => Cursor.refuse (.wrongType s kind)
    | .close _ =>
      Cursor.putBack aside.reverse
      pure a
    | .ended => Cursor.refuse (.malformed (Tape.missingEnd parent.name))

def readChildren {α : Type} (s : Schema α) (parent : Tag) :
    Nat → List String → α → Reading α
  | 0, _, _ => Cursor.refuse .unexpectedEnd
  | budget + 1, seen, a => do
    match ← Cursor.peek with
    | .text _ =>
      let _ ← Cursor.next
      readChildren s parent budget seen a
    | .close _ =>
      let _ ← Cursor.next
      pure a
    | .ended => Cursor.refuse (.malformed (Tape.missingEnd parent.name))
    | .start t =>
      let key ← Cursor.orRefuse ((Entity.verbatim (localName t.name)).mapError .malformed)
      match s.child? key with
      | none =>
        let _ ← Cursor.next
        Cursor.skipElement t.name
        readChildren s parent budget seen a
      | some slot =>
        if seen.contains key then Cursor.refuse (.duplicateField key)
        match slot with
        | .single read =>
          let absent ← Cursor.isNil [parent, t]
          let _ ← Cursor.next
          if absent then
            Cursor.skipElement t.name
            readChildren s parent budget (key :: seen) a
          else
            let set ← read t
            readChildren s parent budget (key :: seen) (set a)
        | .list kind read =>
          let c ← get
          let a ← readList kind read parent t.name (c.left + 1) [] a
          readChildren s parent budget (key :: seen) a

def read {α : Type} (s : Schema α) (t : Tag) : Reading α := do
  let a ← Cursor.orRefuse (s.readAttributes [] s.blank t.attributes)
  let c ← get
  s.readChildren t (c.left + 1) [] a

def each {α β : Type} (kind : String) (inner : Schema β) (add : β → α → α) : Slot α :=
  .list kind fun t => do
    let b ← inner.read t
    pure (add b)

end Schema
end RomLedger.Markup
