import RomLedger.Json.Fault
import RomLedger.Text.Numeral

/- JSON numbers. A number without fraction and exponent is an integer as long as its magnitude fits a word;
   every other one is a double, made from a word of leading digits and a power of ten. -/
namespace RomLedger.Json

inductive Number where
  | natural (n : Nat)
  | negative (n : Nat)
  | decimal (x : Float)
  deriving Repr

def isDigit (c : Char) : Bool := 48 ≤ c.toNat && c.toNat ≤ 57

def digitValue (c : Char) : Nat := c.toNat - 48

def splitDigits (s : List Char) : List Char × List Char := (s.takeWhile isDigit, s.dropWhile isDigit)

/-- Appends digits as long as the value fits a word; tells how many digits were left over. -/
def accumulate (acc : Nat) : List Char → Nat × Nat
  | [] => (acc, 0)
  | d :: ds =>
    if 10 * acc + digitValue d ≤ Numeral.max64 then accumulate (10 * acc + digitValue d) ds
    else (acc, ds.length + 1)

def powerOfTen (n : Nat) : Float := Float.ofScientific 1 false n

def maxPower : Nat := 308

def divideByPower (x : Float) (n : Nat) : Float :=
  if n ≤ maxPower then x / powerOfTen n
  else if x == 0 then x
  else divideByPower (x / powerOfTen maxPower) (n - maxPower)
termination_by n
decreasing_by simp only [maxPower] at *; omega

def scaled? (significand : Nat) (exponent : Int) : Option Float :=
  let x := (UInt64.ofNat significand).toFloat
  if exponent < 0 then some (divideByPower x (-exponent).toNat)
  else if x == 0 then some x
  else if maxPower < exponent.toNat then none
  else
    let y := x * powerOfTen exponent.toNat
    if y.isInf then none else some y

def finish (significand : Nat) (exponent : Int) (rest : List Char) : Except Fault (Float × List Char) :=
  match scaled? significand exponent with
  | some x => .ok (x, rest)
  | none => .error (.before .numberOutOfRange rest)

/-- The digits of an exponent up to the one that leaves the range of a short word. -/
def exponentDigits (acc : Nat) : List Char → Nat × Option (List Char)
  | [] => (acc, none)
  | d :: ds =>
    if 10 * acc + digitValue d ≤ Numeral.max31 then exponentDigits (10 * acc + digitValue d) ds
    else (acc, some ds)

def splitSign : List Char → Bool × List Char
  | '+' :: rest => (true, rest)
  | '-' :: rest => (false, rest)
  | s => (true, s)

def readExponent (significand : Nat) (start : Int) (s : List Char) : Except Fault (Float × List Char) :=
  let (up, s) := splitSign s
  match s with
  | [] => .error (.before .endOfValue [])
  | c :: _ =>
    if !isDigit c then .error (.upon .invalidNumber s)
    else
      let (ds, rest) := splitDigits s
      match exponentDigits 0 ds with
      | (e, none) => finish significand (if up then start + e else start - e) rest
      | (_, some unread) =>
        if significand ≠ 0 ∧ up then .error (.before .numberOutOfRange (unread ++ rest))
        else .ok (0, rest)

def isExponentMark (c : Char) : Bool := c == 'e' || c == 'E'

def readScale (significand : Nat) (exponent : Int) : List Char → Except Fault (Float × List Char)
  | [] => finish significand exponent []
  | c :: rest =>
    if isExponentMark c then readExponent significand exponent rest
    else finish significand exponent (c :: rest)

def readFraction (significand : Nat) (exponent : Int) (s : List Char) :
    Except Fault (Float × List Char) :=
  let (ds, rest) := splitDigits s
  match ds, rest with
  | [], [] => .error (.before .endOfValue [])
  | [], rest => .error (.upon .invalidNumber rest)
  | ds, rest =>
    let (n, left) := accumulate significand ds
    readScale n (exponent - (ds.length - left : Nat)) rest

def signed (negative : Bool) : Except Fault (Float × List Char) → Except Fault (Number × List Char)
  | .ok (x, rest) => .ok (.decimal (if negative then -x else x), rest)
  | .error f => .error f

/-- An integer; below the range of a signed word, or at zero, a negative one is a double. -/
def whole (negative : Bool) (n : Nat) : Number :=
  if !negative then .natural n
  else if n = 0 ∨ Numeral.max63 + 1 < n then .decimal (-(UInt64.ofNat n).toFloat)
  else .negative n

def leadingDigits (c : Char) (s : List Char) : List Char × List Char :=
  if c = '0' then ([c], s) else (c :: (splitDigits s).1, (splitDigits s).2)

/-- What may follow the digits of a number: the value of those that were taken, and how many were left
over. -/
def readEnd (negative : Bool) (n left : Nat) : List Char → Except Fault (Number × List Char)
  | [] => if left = 0 then .ok (whole negative n, []) else signed negative (finish n left [])
  | c :: rest =>
    if isDigit c then .error (.upon .invalidNumber (c :: rest))
    else if c = '.' then signed negative (readFraction n left rest)
    else if isExponentMark c then signed negative (readExponent n left rest)
    else if left = 0 then .ok (whole negative n, c :: rest)
    else signed negative (finish n left (c :: rest))

def readMagnitude (negative : Bool) : List Char → Except Fault (Number × List Char)
  | [] => .error (.before .endOfValue [])
  | c :: rest =>
    if !isDigit c then .error (.upon .invalidNumber (c :: rest))
    else
      let (ds, rest) := leadingDigits c rest
      let (n, left) := accumulate 0 ds
      readEnd negative n left rest

def readNumber : List Char → Except Fault (Number × List Char)
  | '-' :: rest => readMagnitude true rest
  | s => readMagnitude false s

def skipExponent (s : List Char) : Except Fault (List Char) :=
  match (splitSign s).2 with
  | [] => .error (.before .invalidNumber [])
  | c :: rest =>
    if isDigit c then .ok (rest.dropWhile isDigit) else .error (.upon .invalidNumber (c :: rest))

def skipScale : List Char → Except Fault (List Char)
  | [] => .ok []
  | c :: rest => if isExponentMark c then skipExponent rest else .ok (c :: rest)

def skipFraction : List Char → Except Fault (List Char)
  | '.' :: rest =>
    match splitDigits rest with
    | ([], rest) => .error (.upon .invalidNumber rest)
    | (_, rest) => skipScale rest
  | s => skipScale s

def skipEnd : List Char → Except Fault (List Char)
  | [] => .ok []
  | c :: rest =>
    if isDigit c then .error (.upon .invalidNumber (c :: rest)) else skipFraction (c :: rest)

/-- Passes over a number from its digits on. Its value may be out of any range. -/
def skipMagnitude : List Char → Except Fault (List Char)
  | [] => .error (.before .invalidNumber [])
  | c :: rest =>
    if !isDigit c then .error (.upon .invalidNumber (c :: rest))
    else skipEnd (leadingDigits c rest).2

def skipNumber : List Char → Except Fault (List Char)
  | '-' :: rest => skipMagnitude rest
  | s => skipMagnitude s

theorem splitDigits_le (s : List Char) : (splitDigits s).2.length ≤ s.length :=
  (List.dropWhile_sublist _).length_le

theorem splitSign_le (s : List Char) : (splitSign s).2.length ≤ s.length := by
  unfold splitSign
  split <;> simp

theorem finish_rest {n : Nat} {e : Int} {s r : List Char} {x : Float}
    (h : finish n e s = .ok (x, r)) : r = s := by
  unfold finish at h
  split at h
  · injection h with h
    injection h with _ h
    exact h.symm
  · cases h

theorem readExponent_le {n : Nat} {e : Int} {s r : List Char} {x : Float}
    (h : readExponent n e s = .ok (x, r)) : r.length ≤ s.length := by
  have sign := splitSign_le s
  unfold readExponent at h
  simp only at h
  generalize splitSign s = p at h sign
  obtain ⟨up, t⟩ := p
  have digits := splitDigits_le t
  simp only at h sign
  split at h
  · cases h
  · split at h
    · cases h
    · split at h
      · rw [finish_rest h]
        omega
      · split at h
        · cases h
        · injection h with h
          injection h with _ h
          rw [← h]
          omega

theorem readScale_le {n : Nat} {e : Int} {s r : List Char} {x : Float}
    (h : readScale n e s = .ok (x, r)) : r.length ≤ s.length := by
  unfold readScale at h
  split at h
  · exact finish_rest h ▸ Nat.le_refl _
  · split at h
    · exact Nat.le_succ_of_le (readExponent_le h)
    · exact finish_rest h ▸ Nat.le_refl _

theorem readFraction_le {n : Nat} {e : Int} {s r : List Char} {x : Float}
    (h : readFraction n e s = .ok (x, r)) : r.length ≤ s.length := by
  have digits := splitDigits_le s
  unfold readFraction at h
  simp only at h
  split at h
  · cases h
  · cases h
  · exact Nat.le_trans (readScale_le h) digits

theorem of_signed {negative : Bool} {x : Except Fault (Float × List Char)} {n : Number} {r : List Char}
    (h : signed negative x = .ok (n, r)) : ∃ y, x = .ok (y, r) := by
  match x, h with
  | .ok (y, _), h =>
    injection h with h
    injection h with _ h
    exact ⟨y, h ▸ rfl⟩

theorem leadingDigits_le (c : Char) (s : List Char) : (leadingDigits c s).2.length ≤ s.length := by
  unfold leadingDigits
  split
  · exact Nat.le_refl _
  · exact splitDigits_le s

theorem readEnd_le {negative : Bool} {n left : Nat} {s r : List Char} {v : Number}
    (h : readEnd negative n left s = .ok (v, r)) : r.length ≤ s.length := by
  unfold readEnd at h
  split at h
  · split at h
    · injection h with h
      injection h with _ h
      exact h ▸ Nat.le_refl _
    · obtain ⟨_, h⟩ := of_signed h
      exact finish_rest h ▸ Nat.le_refl _
  · split at h
    · cases h
    · split at h
      · obtain ⟨_, h⟩ := of_signed h
        exact Nat.le_succ_of_le (readFraction_le h)
      · split at h
        · obtain ⟨_, h⟩ := of_signed h
          exact Nat.le_succ_of_le (readExponent_le h)
        · split at h
          · injection h with h
            injection h with _ h
            exact h ▸ Nat.le_refl _
          · obtain ⟨_, h⟩ := of_signed h
            exact finish_rest h ▸ Nat.le_refl _

theorem readMagnitude_shorter {negative : Bool} {s r : List Char} {v : Number}
    (h : readMagnitude negative s = .ok (v, r)) : r.length < s.length := by
  unfold readMagnitude at h
  split at h
  · cases h
  · split at h
    · cases h
    · exact Nat.lt_succ_of_le (Nat.le_trans (readEnd_le h) (leadingDigits_le _ _))

theorem readNumber_shorter {s r : List Char} {v : Number} (h : readNumber s = .ok (v, r)) :
    r.length < s.length := by
  unfold readNumber at h
  split at h
  · exact Nat.lt_succ_of_lt (readMagnitude_shorter h)
  · exact readMagnitude_shorter h

theorem skipExponent_shorter {s r : List Char} (h : skipExponent s = .ok r) :
    r.length < s.length := by
  have sign := splitSign_le s
  unfold skipExponent at h
  split at h
  · cases h
  · next eq =>
    rw [eq] at sign
    split at h
    · injection h with h
      rw [← h]
      exact Nat.lt_of_lt_of_le (Nat.lt_succ_of_le (List.dropWhile_sublist _).length_le) sign
    · cases h

theorem skipScale_le {s r : List Char} (h : skipScale s = .ok r) : r.length ≤ s.length := by
  unfold skipScale at h
  split at h
  · injection h with h
    exact h ▸ Nat.le_refl _
  · split at h
    · exact Nat.le_succ_of_le (Nat.le_of_lt (skipExponent_shorter h))
    · injection h with h
      exact h ▸ Nat.le_refl _

theorem skipFraction_le {s r : List Char} (h : skipFraction s = .ok r) : r.length ≤ s.length := by
  unfold skipFraction at h
  split at h
  · next rest =>
    have digits := splitDigits_le rest
    split at h
    · cases h
    · next eq =>
      rw [eq] at digits
      exact Nat.le_succ_of_le (Nat.le_trans (skipScale_le h) digits)
  · exact skipScale_le h

theorem skipEnd_le {s r : List Char} (h : skipEnd s = .ok r) : r.length ≤ s.length := by
  unfold skipEnd at h
  split at h
  · injection h with h
    exact h ▸ Nat.le_refl _
  · split at h
    · cases h
    · exact skipFraction_le h

theorem skipMagnitude_shorter {s r : List Char} (h : skipMagnitude s = .ok r) :
    r.length < s.length := by
  unfold skipMagnitude at h
  split at h
  · cases h
  · split at h
    · cases h
    · exact Nat.lt_succ_of_le (Nat.le_trans (skipEnd_le h) (leadingDigits_le _ _))

theorem skipNumber_shorter {s r : List Char} (h : skipNumber s = .ok r) : r.length < s.length := by
  unfold skipNumber at h
  split at h
  · exact Nat.lt_succ_of_lt (skipMagnitude_shorter h)
  · exact skipMagnitude_shorter h

end RomLedger.Json
