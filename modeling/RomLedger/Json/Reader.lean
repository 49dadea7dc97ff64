import RomLedger.Json.Skip
import RomLedger.Text.Quoted

/- Readers of JSON values of an expected shape. A reader takes a value from the front of a text and leaves the
   rest; it stops at the first fault, whether the text or its shape is at fault. -/
namespace RomLedger.Json

abbrev Reading (α : Type) := Except Fault (α × List Char)

structure Reader (α : Type) where
  run : List Char → Reading α
  shorter : ∀ {s r : List Char} {v : α}, run s = .ok (v, r) → r.length < s.length

def Number.named : Number → String
  | .natural n => s!"integer `{n}`"
  | .negative n => s!"integer `-{n}`"
  | .decimal x => "floating point `" ++ Decimal.shownFloat x ++ "`"

/-- What to say where another kind of value stands, from its first character on. A value without parts
is read first, and may be at fault itself. -/
def refusal (expected : String) (s : List Char) : Fault :=
  let literal (name : String) (word : List Char) (rest : List Char) : Fault :=
    match readWord word rest with
    | .error f => f
    | .ok rest => .before (.wrongType name expected) rest
  match s with
  | [] => .before .endOfValue []
  | 'n' :: rest => literal "null" "ull".toList rest
  | 't' :: rest => literal "boolean `true`" "rue".toList rest
  | 'f' :: rest => literal "boolean `false`" "alse".toList rest
  | '"' :: rest =>
    match readText true rest with
    | .error f => f
    | .ok (cs, rest) =>
      .before (.wrongType ("string " ++ Quoted.encode (String.ofList cs)) expected) rest
  | '[' :: _ => .before (.wrongType "sequence" expected) s
  | '\x7b' :: _ => .before (.wrongType "map" expected) s
  | c :: _ =>
    if c = '-' ∨ isDigit c then
      match readNumber s with
      | .error f => f
      | .ok (n, rest) => .before (.wrongType n.named expected) rest
    else .upon .expectedValue s

def textRun (expected : String) (s : List Char) : Reading String :=
  match dropBlank s with
  | '"' :: rest =>
    match readText true rest with
    | .ok (cs, rest) => .ok (String.ofList cs, rest)
    | .error f => .error f
  | s => .error (refusal expected s)

theorem textRun_shorter {expected : String} {s r : List Char} {v : String}
    (h : textRun expected s = .ok (v, r)) : r.length < s.length := by
  unfold textRun at h
  split at h
  · next hb =>
    split at h
    · next ht =>
      injection h with h
      injection h with _ h
      rw [← h]
      exact Nat.lt_trans (readText_shorter ht) (length_lt_of_dropBlank hb)
    · cases h
  · cases h

namespace Reader

variable {α β : Type}

def text (expected : String) : Reader String := ⟨textRun expected, textRun_shorter⟩

def map (f : α → β) (x : Reader α) : Reader β where
  run s := (x.run s).map fun (v, rest) => (f v, rest)
  shorter {s r v} h := by
    match hx : x.run s, h with
    | .ok (_, _), h =>
      injection h with h
      injection h with _ h
      exact h ▸ x.shorter hx

end Reader

def numberRun {α : Type} (expected : String) (accept : Number → Except Cause α) (s : List Char) :
    Reading α :=
  match dropBlank s with
  | [] => .error (.before .endOfValue [])
  | c :: rest =>
    if c = '-' ∨ isDigit c then
      match readNumber (c :: rest) with
      | .error f => .error f
      | .ok (n, rest) =>
        match accept n with
        | .ok v => .ok (v, rest)
        | .error e => .error (.before e rest)
    else .error (refusal expected (c :: rest))

theorem numberRun_shorter {α : Type} {expected : String} {accept : Number → Except Cause α}
    {s r : List Char} {v : α} (h : numberRun expected accept s = .ok (v, r)) :
    r.length < s.length := by
  have blank := dropBlank_le s
  unfold numberRun at h
  split at h
  · cases h
  · next hb =>
    rw [hb] at blank
    split at h
    · split at h
      · cases h
      · next hn =>
        split at h
        · injection h with h
          injection h with _ h
          rw [← h]
          exact Nat.lt_of_lt_of_le (readNumber_shorter hn) blank
        · cases h
    · cases h

def acceptUnsigned (expected : String) : Number → Except Cause UInt64
  | .natural n => .ok (UInt64.ofNat n)
  | .negative n => .error (.wrongValue (Number.negative n).named expected)
  | .decimal x => .error (.wrongType (Number.decimal x).named expected)

def acceptSigned (expected : String) : Number → Except Cause Int64
  | .natural n =>
    if n ≤ Numeral.max63 then .ok (Int64.ofNat n)
    else .error (.wrongValue (Number.natural n).named expected)
  | .negative n => .ok (Int64.ofInt (-n))
  | .decimal x => .error (.wrongType (Number.decimal x).named expected)

def nullableRun {α : Type} (x : Reader α) (s : List Char) : Reading (Option α) :=
  match dropBlank s with
  | 'n' :: rest =>
    match readWord "ull".toList rest with
    | .ok rest => .ok (none, rest)
    | .error f => .error f
  | s =>
    match x.run s with
    | .ok (v, rest) => .ok (some v, rest)
    | .error f => .error f

theorem nullableRun_shorter {α : Type} {x : Reader α} {s r : List Char} {v : Option α}
    (h : nullableRun x s = .ok (v, r)) : r.length < s.length := by
  unfold nullableRun at h
  split at h
  · next hb =>
    split at h
    · next hw =>
      injection h with h
      injection h with _ h
      rw [← h]
      exact Nat.lt_of_le_of_lt (readWord_le hw) (length_lt_of_dropBlank hb)
    · cases h
  · split at h
    · next hx =>
      injection h with h
      injection h with _ h
      rw [← h]
      exact Nat.lt_of_lt_of_le (x.shorter hx) (dropBlank_le s)
    · cases h

/-- What stands behind a part of a list or an object: the text behind its end, or the next part. -/
inductive Next where
  | closed (rest : List Char)
  | more (s : List Char)

def nextItem (first : Bool) (s : List Char) : Except Fault Next :=
  match dropBlank s with
  | [] => .error (.before .endOfList [])
  | c :: rest =>
    if c = ']' then .ok (.closed rest)
    else if first then .ok (.more (c :: rest))
    else if c = ',' then
      match dropBlank rest with
      | [] => .error (.before .endOfValue [])
      | c :: rest =>
        if c = ']' then .error (.upon .trailingComma (c :: rest)) else .ok (.more (c :: rest))
    else .error (.upon .expectedItemEnd (c :: rest))

theorem nextItem_closed {first : Bool} {s r : List Char} (h : nextItem first s = .ok (.closed r)) :
    r.length < s.length := by
  unfold nextItem at h
  split at h
  · cases h
  · next hb =>
    split at h
    · injection h with h
      injection h with h
      exact h ▸ length_lt_of_dropBlank hb
    · split at h
      · injection h with h
        cases h
      · split at h
        · split at h
          · cases h
          · split at h <;> cases h
        · cases h

theorem nextItem_more {first : Bool} {s t : List Char} (h : nextItem first s = .ok (.more t)) :
    t.length ≤ s.length := by
  have blank := dropBlank_le s
  unfold nextItem at h
  split at h
  · cases h
  · next hb =>
    rw [hb] at blank
    split at h
    · injection h with h
      cases h
    · split at h
      · injection h with h
        injection h with h
        exact h ▸ blank
      · split at h
        · split at h
          · cases h
          · next hc =>
            split at h
            · cases h
            · injection h with h
              injection h with h
              rw [← h, ← hc]
              exact Nat.le_trans (dropBlank_le _) (Nat.le_of_succ_le blank)
        · cases h

/-- The items of a list, from behind the bracket or an item. -/
def itemsRun {α : Type} (x : Reader α) (first : Bool) (s : List Char) : Reading (List α) :=
  match _h : nextItem first s with
  | .error f => .error f
  | .ok (.closed rest) => .ok ([], rest)
  | .ok (.more t) =>
    match _hx : x.run t with
    | .error f => .error f
    | .ok (v, rest) =>
      match itemsRun x false rest with
      | .ok (vs, rest) => .ok (v :: vs, rest)
      | .error f => .error f
termination_by s.length
decreasing_by exact Nat.lt_of_lt_of_le (x.shorter _hx) (nextItem_more _h)

theorem itemsRun_shorter {α : Type} {x : Reader α} {first : Bool} {s r : List Char} {vs : List α}
    (h : itemsRun x first s = .ok (vs, r)) : r.length < s.length := by
  rw [itemsRun] at h
  split at h
  · cases h
  · next hi =>
    injection h with h
    injection h with _ h
    exact h ▸ nextItem_closed hi
  · next hi =>
    split at h
    · cases h
    · next hx =>
      have less := Nat.lt_of_lt_of_le (x.shorter hx) (nextItem_more hi)
      split at h
      · next ht =>
        injection h with h
        injection h with _ h
        rw [← h]
        exact Nat.lt_trans (itemsRun_shorter ht) less
      · cases h
termination_by s.length

def listRun {α : Type} (x : Reader α) (s : List Char) : Reading (List α) :=
  match dropBlank s with
  | '[' :: rest => itemsRun x true rest
  | s => .error (refusal "a sequence" s)

theorem listRun_shorter {α : Type} {x : Reader α} {s r : List Char} {vs : List α}
    (h : listRun x s = .ok (vs, r)) : r.length < s.length := by
  unfold listRun at h
  split at h
  · next hb => exact Nat.lt_trans (itemsRun_shorter h) (length_lt_of_dropBlank hb)
  · cases h

namespace Reader

variable {α : Type}

def unsigned (expected : String) : Reader UInt64 :=
  ⟨numberRun expected (acceptUnsigned expected), numberRun_shorter⟩

def signed (expected : String) : Reader Int64 :=
  ⟨numberRun expected (acceptSigned expected), numberRun_shorter⟩

def nullable (x : Reader α) : Reader (Option α) := ⟨nullableRun x, nullableRun_shorter⟩

def list (x : Reader α) : Reader (List α) := ⟨listRun x, listRun_shorter⟩

def document (x : Reader α) (text : String) : Except Fault α :=
  match x.run text.toList with
  | .error f => .error f
  | .ok (v, rest) =>
    match dropBlank rest with
    | [] => .ok v
    | rest => .error (.upon .trailingCharacters rest)

end Reader
end RomLedger.Json
