import RomLedger.Markup.Entity
import RomLedger.Markup.Piece
import RomLedger.Markup.Scope

/- Pieces joined to events. Between markup, texts and character data run together into one text, which loses
   its outer blanks; notes and declarations vanish. -/
namespace RomLedger.Markup

inductive Event where
  | start (t : Tag)
  | close (name : Bytes)
  | text (s : String)
  | ended
  deriving DecidableEq, Repr

/-- The piece ahead, the pieces behind it, whether a text that comes next loses its blanks in front,
the prefix bindings in force, and the line reached. -/
structure Tape where
  ahead : Except Malformed Piece
  items : List Item
  trim : Bool
  scopes : Scopes
  line : Nat

namespace Tape

def pull (trim : Bool) (scopes : Scopes) (line : Nat) : List Item → Tape
  | [] => ⟨.ok .ended, [], true, scopes.settle, line⟩
  | ⟨what, line⟩ :: rest =>
    let scopes := scopes.settle
    match what with
    | .error e => ⟨.error e, rest, trim, scopes, line⟩
    | .ok .note => pull trim scopes line rest
    | .ok (.text b) =>
      let kept := if trim then Scanner.trimStart b else b
      if kept.isEmpty then pull trim scopes line rest
      else ⟨.ok (.text kept), rest, false, scopes, line⟩
    | .ok (.cdata b) => ⟨.ok (.cdata b), rest, false, scopes, line⟩
    | .ok (.start t) =>
      match scopes.enter t with
      | .ok inner => ⟨.ok (.start t), rest, true, inner, line⟩
      | .error e => ⟨.error (.scope e), rest, trim, scopes, line⟩
    | .ok (.close name) => ⟨.ok (.close name), rest, true, { scopes with closing := true }, line⟩
    | .ok p => ⟨.ok p, rest, true, scopes, line⟩

def ofItems (items : List Item) : Tape := pull true .outermost 1 items

def atEnd (t : Tape) : Bool :=
  match t.ahead with
  | .ok .ended => true
  | _ => false

def advance (t : Tape) : Except Malformed Piece × Tape :=
  (t.ahead, pull t.trim t.scopes t.line t.items)

def left (t : Tape) : Nat := t.items.length + if t.atEnd then 0 else 1

theorem length_pull (trim : Bool) (scopes : Scopes) (line : Nat) (items : List Item) :
    (pull trim scopes line items).items.length ≤ items.length - 1 := by
  fun_induction pull trim scopes line items <;> simp_all <;> omega

theorem left_advance {t : Tape} (more : t.atEnd = false) : t.advance.2.left < t.left := by
  obtain ⟨ahead, items, trim, scopes, line⟩ := t
  have shorter := length_pull trim scopes line items
  simp only [advance, left, more]
  cases items with
  | nil => simp [pull, atEnd]
  | cons i rest =>
    simp only [List.length_cons, Bool.false_eq_true, ↓reduceIte] at shorter ⊢
    by_cases last : (pull trim scopes line (i :: rest)).atEnd <;> simp [last] <;> omega

def continues (t : Tape) : Bool :=
  match t.ahead with
  | .ok (.text _) | .ok (.cdata _) => true
  | _ => false

theorem atEnd_of_continues {t : Tape} (h : t.continues) : t.atEnd = false := by
  unfold continues at h
  unfold atEnd
  split at h <;> simp_all

def visible (t : Tape) (b : Bytes) : Bytes := if t.continues then b else Scanner.trimEnd b

def join (s : String) (t : Tape) : Except Malformed Event × Tape :=
  if _more : t.continues then
    let rest := t.advance.2
    let part := match t.ahead with
      | .ok (.text b) => Entity.text (rest.visible b)
      | .ok (.cdata b) => Entity.verbatim b
      | _ => .ok ""
    match part with
    | .ok p => join (s ++ p) rest
    | .error e => (.error e, rest)
  else (.ok (.text s), t)
termination_by t.left
decreasing_by exact left_advance (atEnd_of_continues _more)

def next (t : Tape) : Except Malformed Event × Tape :=
  let rest := t.advance.2
  match _seen : t.ahead with
  | .error e => (.error e, rest)
  | .ok .ended => (.ok .ended, rest)
  | .ok (.start tag) => (.ok (.start tag), rest)
  | .ok (.close name) => (.ok (.close name), rest)
  | .ok (.text b) =>
    let kept := rest.visible b
    if kept.isEmpty then rest.next
    else
      match Entity.text kept with
      | .ok s => rest.join s
      | .error e => (.error e, rest)
  | .ok (.cdata b) =>
    match Entity.verbatim b with
    | .ok s => rest.join s
    | .error e => (.error e, rest)
  | .ok .doctype => rest.next
  | .ok .note => rest.next
termination_by t.left
decreasing_by all_goals exact left_advance (by simp [atEnd, _seen])

def missingEnd (name : Bytes) : Malformed :=
  match Utf8.decode name with
  | .ok s => .nesting (.missingEnd s)
  | .error e => .encoding e

def passItems (name : Bytes) (depth line : Nat) :
    List Item → Except Malformed Unit × Nat × List Item
  | [] => (.error (missingEnd name), line, [])
  | ⟨what, line⟩ :: rest =>
    match what with
    | .error e => (.error e, line, rest)
    | .ok .ended => (.error (missingEnd name), line, rest)
    | .ok (.start t) => passItems name (if t.name = name then depth + 1 else depth) line rest
    | .ok (.close n) =>
      if n = name then
        match depth with
        | 0 => (.ok (), line, rest)
        | d + 1 => passItems name d line rest
      else passItems name depth line rest
    | .ok _ => passItems name depth line rest

def pass (name : Bytes) (t : Tape) : Except Malformed Unit × Tape :=
  let (result, line, rest) := passItems name 0 t.line t.items
  let scopes := match result with
    | .ok () => t.scopes.leave
    | .error _ => t.scopes
  (result, { t with items := rest, line := line, scopes := scopes })

/-- Skips the rest of an element whose start tag was taken. An element of the same name that is
ahead takes an end tag of its own. -/
def skipElement (name : Bytes) (t : Tape) : Except Malformed Unit × Tape :=
  match t.ahead with
  | .error e => (.error e, t.advance.2)
  | .ok (.close n) =>
    if n = name then (.ok (), t.advance.2)
    else
      let (result, t) := t.pass name
      (result, t.advance.2)
  | .ok p =>
    let (inner, t) := t.pass name
    if p.opens name then
      let (outer, t) := t.pass name
      (inner.bind fun _ => outer, t.advance.2)
    else (inner, t.advance.2)

end Tape
end RomLedger.Markup
