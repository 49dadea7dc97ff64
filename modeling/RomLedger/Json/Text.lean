import RomLedger.Json.Fault
import RomLedger.Json.Value

/- The texts of a JSON document, read from behind the opening quote. A text that is kept must be sound, so
   that its surrogates stand in pairs; one that is passed over need only be well formed. -/
namespace RomLedger.Json

def hexValue? (c : Char) : Option Nat :=
  let n := c.toNat
  if 48 ≤ n ∧ n ≤ 57 then some (n - 48)
  else if 97 ≤ n ∧ n ≤ 102 then some (n - 87)
  else if 65 ≤ n ∧ n ≤ 70 then some (n - 55)
  else none

def fourHex? (a b c d : Char) : Option Nat := do
  let a ← hexValue? a
  let b ← hexValue? b
  let c ← hexValue? c
  let d ← hexValue? d
  some (4096 * a + 256 * b + 16 * c + d)

def readHex : List Char → Except Fault (Nat × List Char)
  | a :: b :: c :: d :: rest =>
    match fourHex? a b c d with
    | some n => .ok (n, rest)
    | none => .error ⟨.invalidEscape, a :: b :: c :: d :: rest, 4⟩
  | s =>
    if (s.flatMap String.utf8EncodeChar).length < 4 then .error (.before .endOfText [])
    else .error ⟨.invalidEscape, s, 4⟩

def isHigh (n : Nat) : Bool := 0xD800 ≤ n && n ≤ 0xDBFF
def isLow (n : Nat) : Bool := 0xDC00 ≤ n && n ≤ 0xDFFF

def pairChar (high low : Nat) : Char :=
  Char.ofNat (0x10000 + 0x400 * (high - 0xD800) + (low - 0xDC00))

def readLow (high : Nat) : List Char → Except Fault (Char × List Char)
  | [] => .error (.before .endOfText [])
  | '\\' :: rest =>
    match rest with
    | [] => .error (.before .endOfText [])
    | 'u' :: rest =>
      match readHex rest with
      | .error f => .error f
      | .ok (low, rest) =>
        if isLow low then .ok (pairChar high low, rest) else .error (.before .loneSurrogate rest)
    | rest => .error (.upon .brokenPair rest)
  | s => .error (.upon .brokenPair s)

/-- A character given by its number, from behind the letter. -/
def readUnicode (sound : Bool) (s : List Char) : Except Fault (Char × List Char) :=
  match readHex s with
  | .error f => .error f
  | .ok (n, rest) =>
    if sound && isLow n then .error (.before .loneSurrogate rest)
    else if sound && isHigh n then readLow n rest
    else .ok (Char.ofNat n, rest)

def letterEscape? : Char → Option Char
  | '"' => some '"'
  | '\\' => some '\\'
  | '/' => some '/'
  | 'b' => some '\x08'
  | 'f' => some '\x0c'
  | 'n' => some '\n'
  | 'r' => some '\r'
  | 't' => some '\t'
  | _ => none

/-- An escaped character, from behind the backslash. -/
def readEscape (sound : Bool) : List Char → Except Fault (Char × List Char)
  | [] => .error (.before .endOfText [])
  | 'u' :: rest => readUnicode sound rest
  | c :: rest =>
    match letterEscape? c with
    | some c => .ok (c, rest)
    | none => .error (.upon .invalidEscape (c :: rest))

theorem readHex_shorter {s r : List Char} {n : Nat} (h : readHex s = .ok (n, r)) :
    r.length < s.length := by
  unfold readHex at h
  split at h
  · split at h
    · injection h with h
      injection h with _ h
      subst h
      simp only [List.length_cons]
      omega
    · cases h
  · split at h <;> cases h

theorem readLow_shorter {high : Nat} {s r : List Char} {c : Char}
    (h : readLow high s = .ok (c, r)) : r.length < s.length := by
  unfold readLow at h
  split at h
  · cases h
  · split at h
    · cases h
    · split at h
      · cases h
      · next low rest hx =>
        split at h
        · injection h with h
          injection h with _ h
          subst h
          have := readHex_shorter hx
          simp only [List.length_cons]
          omega
        · cases h
    · cases h
  · cases h

theorem readUnicode_shorter {sound : Bool} {s r : List Char} {c : Char}
    (h : readUnicode sound s = .ok (c, r)) : r.length < s.length := by
  unfold readUnicode at h
  split at h
  · cases h
  · next n rest hx =>
    have shorter := readHex_shorter hx
    split at h
    · cases h
    · split at h
      · exact Nat.lt_trans (readLow_shorter h) shorter
      · injection h with h
        injection h with _ h
        subst h
        exact shorter

theorem readEscape_shorter {sound : Bool} {s r : List Char} {c : Char}
    (h : readEscape sound s = .ok (c, r)) : r.length < s.length := by
  unfold readEscape at h
  split at h
  · cases h
  · exact Nat.lt_succ_of_lt (readUnicode_shorter h)
  · split at h
    · injection h with h
      injection h with _ h
      subst h
      simp
    · cases h

def onto (c : Char) : Except Fault (List Char × List Char) → Except Fault (List Char × List Char)
  | .ok (cs, rest) => .ok (c :: cs, rest)
  | .error f => .error f

def readText (sound : Bool) (s : List Char) : Except Fault (List Char × List Char) :=
  match s with
  | [] => .error (.before .endOfText [])
  | c :: rest =>
    if c = '"' then .ok ([], rest)
    else if c = '\\' then
      match _h : readEscape sound rest with
      | .error f => .error f
      | .ok (c, rest) => onto c (readText sound rest)
    else if c.toNat < 32 then
      .error (.before .controlCharacter (if sound then rest else c :: rest))
    else onto c (readText sound rest)
termination_by s.length
decreasing_by
  · exact Nat.lt_succ_of_lt (readEscape_shorter _h)
  · simp

theorem of_onto {c : Char} {x : Except Fault (List Char × List Char)} {cs r : List Char}
    (h : onto c x = .ok (cs, r)) : ∃ tail, x = .ok (tail, r) := by
  match x, h with
  | .ok (tail, _), h =>
    injection h with h
    injection h with _ h
    exact ⟨tail, h ▸ rfl⟩

theorem readText_shorter {sound : Bool} {s r cs : List Char}
    (h : readText sound s = .ok (cs, r)) : r.length < s.length := by
  fun_induction readText sound s generalizing cs r with
  | case1 => cases h
  | case2 => injection h with h; injection h with _ h; subst h; simp
  | case3 => cases h
  | case4 =>
    rename_i hx _ ih
    obtain ⟨_, h⟩ := of_onto h
    have := readEscape_shorter hx
    have := ih h
    simp only [List.length_cons]
    omega
  | case5 => cases h
  | case6 =>
    rename_i ih
    obtain ⟨_, h⟩ := of_onto h
    have := ih h
    simp only [List.length_cons]
    omega

end RomLedger.Json
