import RomLedger.Json.Reader

/- Records: objects with known fields. Fields come in any order, each at most once; unknown ones are passed
   over. A record may also stand as the list of its fields' values, in order. -/
namespace RomLedger.Json

/-- A field of a record: its value changes the draft. -/
structure Field (δ : Type) where
  name : String
  required : Bool
  isGiven : δ → Bool
  value : Reader (δ → δ)

structure Record (δ : Type) where
  label : String
  fields : List (Field δ)

def nextField (first : Bool) (s : List Char) : Except Fault Next :=
  match dropBlank s with
  | [] => .error (.before .endOfObject [])
  | c :: rest =>
    if c = '\x7d' then .ok (.closed rest)
    else if first then
      if c = '"' then .ok (.more rest) else .error (.upon .nameNotText (c :: rest))
    else if c = ',' then
      match dropBlank rest with
      | [] => .error (.before .endOfValue [])
      | c :: rest =>
        if c = '"' then .ok (.more rest)
        else if c = '\x7d' then .error (.upon .trailingComma (c :: rest))
        else .error (.upon .nameNotText (c :: rest))
    else .error (.upon .expectedFieldEnd (c :: rest))

theorem nextField_closed {first : Bool} {s r : List Char}
    (h : nextField first s = .ok (.closed r)) : r.length < s.length := by
  unfold nextField at h
  split at h
  · cases h
  · next hb =>
    split at h
    · injection h with h
      injection h with h
      exact h ▸ length_lt_of_dropBlank hb
    · split at h
      · split at h
        · injection h with h
          cases h
        · cases h
      · split at h
        · split at h
          · cases h
          · split at h
            · injection h with h
              cases h
            · split at h <;> cases h
        · cases h

theorem nextField_more {first : Bool} {s t : List Char} (h : nextField first s = .ok (.more t)) :
    t.length < s.length := by
  unfold nextField at h
  split at h
  · cases h
  · next hb =>
    have less := length_lt_of_dropBlank hb
    split at h
    · injection h with h
      cases h
    · split at h
      · split at h
        · injection h with h
          injection h with h
          exact h ▸ less
        · cases h
      · split at h
        · split at h
          · cases h
          · next hc =>
            split at h
            · injection h with h
              injection h with h
              exact h ▸ Nat.lt_trans (length_lt_of_dropBlank hc) less
            · split at h <;> cases h
        · cases h

def readColon (s : List Char) : Except Fault (List Char) :=
  match dropBlank s with
  | [] => .error (.before .endOfObject [])
  | c :: rest => if c = ':' then .ok rest else .error (.upon .expectedColon (c :: rest))

theorem readColon_shorter {s r : List Char} (h : readColon s = .ok r) : r.length < s.length := by
  unfold readColon at h
  split at h
  · cases h
  · next hb =>
    split at h
    · injection h with h
      exact h ▸ length_lt_of_dropBlank hb
    · cases h

def pastEnd (closing : Char) (s : List Char) : List Char :=
  match dropBlank s with
  | [] => []
  | c :: rest => if c = closing then rest else c :: rest

def listEnd (s : List Char) : Except Fault (List Char) :=
  match dropBlank s with
  | [] => .error (.before .endOfList [])
  | c :: rest =>
    if c = ']' then .ok rest
    else if c = ',' then
      match dropBlank rest with
      | [] => .error (.upon .trailingCharacters [])
      | c :: rest =>
        .error (.upon (if c = ']' then .trailingComma else .trailingCharacters) (c :: rest))
    else .error (.upon .trailingCharacters (c :: rest))

theorem listEnd_shorter {s r : List Char} (h : listEnd s = .ok r) : r.length < s.length := by
  unfold listEnd at h
  split at h
  · cases h
  · next hb =>
    split at h
    · injection h with h
      exact h ▸ length_lt_of_dropBlank hb
    · split at h
      · split at h <;> cases h
      · cases h

namespace Record

variable {δ : Type}

def missing? (r : Record δ) (d : δ) : Option (Field δ) :=
  r.fields.find? fun f => f.required && !f.isGiven d

def readField (f : Option (Field δ)) (d : δ) (s : List Char) : Reading δ :=
  match readColon s with
  | .error e => .error e
  | .ok rest =>
    match f with
    | none => (skipValue [] rest).map fun rest => (d, rest)
    | some f => (f.value.run rest).map fun (g, rest) => (g d, rest)

theorem readField_shorter {f : Option (Field δ)} {d v : δ} {s r : List Char}
    (h : readField f d s = .ok (v, r)) : r.length < s.length := by
  unfold readField at h
  split at h
  · cases h
  · next rest hc =>
    have less := readColon_shorter hc
    split at h
    · match hs : skipValue [] rest, h with
      | .ok _, h =>
        injection h with h
        injection h with _ h
        exact h ▸ Nat.lt_trans (skipValue_shorter hs) less
    · next f =>
      match hs : f.value.run rest, h with
      | .ok (_, _), h =>
        injection h with h
        injection h with _ h
        exact h ▸ Nat.lt_trans (f.value.shorter hs) less

def fieldsRun (r : Record δ) (first : Bool) (d : δ) (s : List Char) : Reading δ :=
  match _h : nextField first s with
  | .error e => .error e
  | .ok (.closed rest) =>
    match r.missing? d with
    | some f => .error (.before (.missingField f.name) rest)
    | none => .ok (d, rest)
  | .ok (.more t) =>
    match _ht : readText true t with
    | .error e => .error e
    | .ok (name, rest) =>
      let f := r.fields.find? fun f => f.name == String.ofList name
      if f.any (·.isGiven d) then
        .error (.before (.duplicateField (String.ofList name)) (pastEnd '\x7d' rest))
      else
        match _hf : readField f d rest with
        | .error e => .error e
        | .ok (d, rest) => r.fieldsRun false d rest
termination_by s.length
decreasing_by
  exact Nat.lt_trans (readField_shorter _hf)
    (Nat.lt_trans (readText_shorter _ht) (nextField_more _h))

theorem fieldsRun_shorter {r : Record δ} {first : Bool} {d v : δ} {s rest : List Char}
    (h : r.fieldsRun first d s = .ok (v, rest)) : rest.length < s.length := by
  rw [fieldsRun] at h
  split at h
  · cases h
  · next hc =>
    split at h
    · cases h
    · injection h with h
      injection h with _ h
      exact h ▸ nextField_closed hc
  · next hm =>
    split at h
    · cases h
    · next ht =>
      simp only at h
      split at h
      · cases h
      · split at h
        · cases h
        · next hf =>
          have less := Nat.lt_trans (readField_shorter hf)
            (Nat.lt_trans (readText_shorter ht) (nextField_more hm))
          exact Nat.lt_trans (fieldsRun_shorter h) less
termination_by s.length

/-- The values of the fields in order, from behind the bracket or a value; `count` have been read. -/
def valuesRun (r : Record δ) (count : Nat) (d : δ) (fields : List (Field δ)) (s : List Char) :
    Reading δ :=
  match fields with
  | [] => (listEnd s).map fun rest => (d, rest)
  | f :: others =>
    match nextItem (count == 0) s with
    | .error e => .error e
    | .ok (.closed rest) =>
      if fields.any (·.required) then
        .error (.before (.wrongLength count
          (r.label ++ s!" with {r.fields.length} elements")) rest)
      else .ok (d, rest)
    | .ok (.more t) =>
      match f.value.run t with
      | .error e => .error e
      | .ok (g, rest) => r.valuesRun (count + 1) (g d) others rest

theorem valuesRun_shorter {r : Record δ} {count : Nat} {d v : δ} {fields : List (Field δ)}
    {s rest : List Char} (h : r.valuesRun count d fields s = .ok (v, rest)) :
    rest.length < s.length := by
  induction fields generalizing count d s with
  | nil =>
    unfold valuesRun at h
    match he : listEnd s, h with
    | .ok _, h =>
      injection h with h
      injection h with _ h
      exact h ▸ listEnd_shorter he
  | cons f others ih =>
    unfold valuesRun at h
    split at h
    · cases h
    · next hc =>
      split at h
      · cases h
      · injection h with h
        injection h with _ h
        exact h ▸ nextItem_closed hc
    · next hm =>
      split at h
      · cases h
      · next hv =>
        exact Nat.lt_trans (ih h) (Nat.lt_of_lt_of_le (f.value.shorter hv) (nextItem_more hm))

def run (r : Record δ) (d : δ) (s : List Char) : Reading δ :=
  match dropBlank s with
  | '\x7b' :: rest => r.fieldsRun true d rest
  | '[' :: rest => r.valuesRun 0 d r.fields rest
  | s => .error (refusal r.label s)

theorem run_shorter {r : Record δ} {d v : δ} {s rest : List Char}
    (h : r.run d s = .ok (v, rest)) : rest.length < s.length := by
  unfold run at h
  split at h
  · next hb => exact Nat.lt_trans (fieldsRun_shorter h) (length_lt_of_dropBlank hb)
  · next hb => exact Nat.lt_trans (valuesRun_shorter h) (length_lt_of_dropBlank hb)
  · cases h

def reader (r : Record δ) (blank : δ) : Reader δ := ⟨r.run blank, run_shorter⟩

end Record
end RomLedger.Json
