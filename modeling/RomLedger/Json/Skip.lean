import RomLedger.Json.Number
import RomLedger.Json.Text

/- Passing over a value that nobody asked for. It has to be well formed, however deep it is; what encloses the
   place reached is kept as a list of open brackets. -/
namespace RomLedger.Json

def isBlank (c : Char) : Bool := c == ' ' || c == '\n' || c == '\t' || c == '\r'

def dropBlank (s : List Char) : List Char := s.dropWhile isBlank

theorem dropBlank_le (s : List Char) : (dropBlank s).length ≤ s.length :=
  (List.dropWhile_sublist _).length_le

theorem length_lt_of_dropBlank {s r : List Char} {c : Char} (h : dropBlank s = c :: r) :
    r.length < s.length := by
  have := dropBlank_le s
  rw [h] at this
  exact this

def readWord : List Char → List Char → Except Fault (List Char)
  | [], s => .ok s
  | _ :: _, [] => .error (.before .endOfValue [])
  | w :: ws, c :: rest =>
    if c = w then readWord ws rest else .error (.upon .expectedWord (c :: rest))

theorem readWord_le {ws s r : List Char} (h : readWord ws s = .ok r) : r.length ≤ s.length := by
  induction ws generalizing s with
  | nil => injection h with h; exact h ▸ Nat.le_refl _
  | cons w ws ih =>
    match s, h with
    | c :: rest, h =>
      unfold readWord at h
      split at h
      · exact Nat.le_succ_of_le (ih h)
      · cases h

inductive Bracket where
  | square
  | curly
  deriving DecidableEq, Repr

namespace Bracket

def closing : Bracket → Char
  | .square => ']'
  | .curly => '\x7d'

def unfinished : Bracket → Cause
  | .square => .endOfList
  | .curly => .endOfObject

def unclosed : Bracket → Cause
  | .square => .expectedItemEnd
  | .curly => .expectedFieldEnd

end Bracket

def skipScalar (c : Char) (s : List Char) : Except Fault (List Char) :=
  if c = '"' then (readText false s).map Prod.snd
  else if c = 'n' then readWord "ull".toList s
  else if c = 't' then readWord "rue".toList s
  else if c = 'f' then readWord "alse".toList s
  else if c = '-' ∨ isDigit c then skipNumber (c :: s)
  else .error (.upon .expectedValue (c :: s))

theorem skipScalar_le {c : Char} {s r : List Char} (h : skipScalar c s = .ok r) :
    r.length ≤ s.length := by
  unfold skipScalar at h
  split at h
  · match ht : readText false s, h with
    | .ok (cs, rest), h =>
      injection h with h
      rw [← h]
      exact Nat.le_of_lt (readText_shorter ht)
  · split at h
    · exact readWord_le h
    · split at h
      · exact readWord_le h
      · split at h
        · exact readWord_le h
        · split at h
          · exact Nat.le_of_lt_succ (skipNumber_shorter h)
          · cases h

/-- The name of a field and its colon, from the quote on; blanks in front are gone. -/
def skipName (s : List Char) : Except Fault (List Char) :=
  match s with
  | [] => .error (.before .endOfObject [])
  | c :: rest =>
    if c = '"' then
      match readText false rest with
      | .error f => .error f
      | .ok (_, rest) =>
        match dropBlank rest with
        | [] => .error (.before .endOfObject [])
        | ':' :: rest => .ok rest
        | rest => .error (.upon .expectedColon rest)
    else .error (.upon .nameNotText s)

theorem skipName_shorter {s r : List Char} (h : skipName s = .ok r) : r.length < s.length := by
  unfold skipName at h
  split at h
  · cases h
  · split at h
    · split at h
      · cases h
      · next ht =>
        have text := readText_shorter ht
        split at h
        · cases h
        · next hb =>
          injection h with h
          have colon := length_lt_of_dropBlank hb
          rw [h] at colon
          simp only [List.length_cons]
          omega
        · cases h
    · cases h

/-- Before an item or a field that is to follow: the field's name is passed over. -/
def skipLead (b : Bracket) (s : List Char) : Except Fault (List Char) :=
  match b with
  | .square => .ok s
  | .curly => skipName (dropBlank s)

theorem skipLead_le {b : Bracket} {s r : List Char} (h : skipLead b s = .ok r) :
    r.length ≤ s.length := by
  unfold skipLead at h
  split at h
  · injection h with h
    exact h ▸ Nat.le_refl _
  · exact Nat.le_trans (Nat.le_of_lt (skipName_shorter h)) (dropBlank_le s)

mutual

def skipValue (enclosing : List Bracket) (s : List Char) : Except Fault (List Char) :=
  match _h : dropBlank s with
  | [] => .error (.before .endOfValue [])
  | c :: rest =>
    if c = '[' then skipOpened .square enclosing rest
    else if c = '\x7b' then skipOpened .curly enclosing rest
    else
      match _hs : skipScalar c rest with
      | .error f => .error f
      | .ok rest => skipAfter enclosing rest
termination_by (s.length, 0)
decreasing_by
  all_goals have := length_lt_of_dropBlank _h
  · exact Prod.Lex.left _ _ this
  · exact Prod.Lex.left _ _ this
  · exact Prod.Lex.left _ _ (Nat.lt_of_le_of_lt (skipScalar_le _hs) this)

def skipOpened (b : Bracket) (enclosing : List Bracket) (s : List Char) :
    Except Fault (List Char) :=
  match _h : dropBlank s with
  | [] => .error (.before b.unfinished [])
  | c :: rest =>
    if c = b.closing then skipAfter enclosing rest
    else
      match _hl : skipLead b s with
      | .error f => .error f
      | .ok rest => skipValue (b :: enclosing) rest
termination_by (s.length, 1)
decreasing_by
  · exact Prod.Lex.left _ _ (length_lt_of_dropBlank _h)
  · rcases Nat.lt_or_eq_of_le (skipLead_le _hl) with less | same
    · exact Prod.Lex.left _ _ less
    · exact same ▸ Prod.Lex.right _ Nat.zero_lt_one

def skipAfter (enclosing : List Bracket) (s : List Char) : Except Fault (List Char) :=
  match enclosing with
  | [] => .ok s
  | b :: outer =>
    match _h : dropBlank s with
    | [] => .error (.before b.unfinished [])
    | c :: rest =>
      if c = b.closing then skipAfter outer rest
      else if c = ',' then
        match _hl : skipLead b rest with
        | .error f => .error f
        | .ok rest => skipValue (b :: outer) rest
      else .error (.upon b.unclosed (c :: rest))
termination_by (s.length, 0)
decreasing_by
  all_goals have := length_lt_of_dropBlank _h
  · exact Prod.Lex.left _ _ this
  · exact Prod.Lex.left _ _ (Nat.lt_of_le_of_lt (skipLead_le _hl) this)

end

mutual

theorem skipValue_shorter {enclosing : List Bracket} {s r : List Char}
    (h : skipValue enclosing s = .ok r) : r.length < s.length := by
  rw [skipValue] at h
  split at h
  · cases h
  · next hb =>
    have less := length_lt_of_dropBlank hb
    split at h
    · exact Nat.lt_trans (skipOpened_shorter h) less
    · split at h
      · exact Nat.lt_trans (skipOpened_shorter h) less
      · split at h
        · cases h
        · next hs =>
          have := Nat.lt_of_le_of_lt (skipScalar_le hs) less
          exact Nat.lt_of_le_of_lt (skipAfter_le h) this
termination_by (s.length, 0)
decreasing_by all_goals exact Prod.Lex.left _ _ ‹_›

theorem skipOpened_shorter {b : Bracket} {enclosing : List Bracket} {s r : List Char}
    (h : skipOpened b enclosing s = .ok r) : r.length < s.length := by
  rw [skipOpened] at h
  split at h
  · cases h
  · next hb =>
    have less := length_lt_of_dropBlank hb
    split at h
    · exact Nat.lt_of_le_of_lt (skipAfter_le h) less
    · split at h
      · cases h
      · next hl =>
        have := skipLead_le hl
        exact Nat.lt_of_lt_of_le (skipValue_shorter h) this
termination_by (s.length, 1)
decreasing_by
  · rcases Nat.lt_or_eq_of_le this with less | same
    · exact Prod.Lex.left _ _ less
    · exact same ▸ Prod.Lex.right _ Nat.zero_lt_one
  · exact Prod.Lex.left _ _ less

theorem skipAfter_le {enclosing : List Bracket} {s r : List Char}
    (h : skipAfter enclosing s = .ok r) : r.length ≤ s.length := by
  rw [skipAfter.eq_def] at h
  split at h
  · injection h with h
    exact h ▸ Nat.le_refl _
  · split at h
    · cases h
    · next hb =>
      have less := length_lt_of_dropBlank hb
      split at h
      · exact Nat.le_trans (skipAfter_le h) (Nat.le_of_lt less)
      · split at h
        · split at h
          · cases h
          · next hl =>
            have := Nat.lt_of_le_of_lt (skipLead_le hl) less
            exact Nat.le_of_lt (Nat.lt_trans (skipValue_shorter h) this)
        · cases h
termination_by (s.length, 0)
decreasing_by all_goals exact Prod.Lex.left _ _ ‹_›

end

end RomLedger.Json
