import Mathlib
import RomLedger.Json.Text

/- How characters are spelled within quotes. -/
namespace RomLedger.Json

/-- What spells characters within quotes. In a spelling that need not be sound, half a pair may stand alone. -/
inductive Spells (sound : Bool) : List Char → List Char → Prop
  | nil : Spells sound [] []
  | plain {c : Char} {cs s : List Char} (proper : c ≠ '"' ∧ c ≠ '\\' ∧ 32 ≤ c.toNat) (later : Spells sound cs s) :
      Spells sound (c :: cs) (c :: s)
  | letter {l c : Char} {cs s : List Char} (named : letterEscape? l = some c) (later : Spells sound cs s) :
      Spells sound (c :: cs) ('\\' :: l :: s)
  | number {w x y z : Char} {n : Nat} {cs s : List Char} (hex : fourHex? w x y z = some n)
      (whole : sound = true → isHigh n = false ∧ isLow n = false) (later : Spells sound cs s) :
      Spells sound (Char.ofNat n :: cs) ('\\' :: 'u' :: w :: x :: y :: z :: s)
  | pair {w x y z w' x' y' z' : Char} {high low : Nat} {cs s : List Char} (keeps : sound = true)
      (first : fourHex? w x y z = some high) (upper : isHigh high = true)
      (second : fourHex? w' x' y' z' = some low) (lower : isLow low = true) (later : Spells sound cs s) :
      Spells sound (pairChar high low :: cs)
        ('\\' :: 'u' :: w :: x :: y :: z :: '\\' :: 'u' :: w' :: x' :: y' :: z' :: s)

variable {sound : Bool} {cs s rest : List Char}

theorem readHex_four {w x y z : Char} {n : Nat} (hex : fourHex? w x y z = some n) :
    readHex (w :: x :: y :: z :: rest) = .ok (n, rest) := by
  simp only [readHex, hex]

theorem readEscape_letter {l c : Char} (named : letterEscape? l = some c) :
    readEscape sound (l :: rest) = .ok (c, rest) := by
  unfold readEscape
  split
  · rename_i none
    cases none
  · rename_i same
    obtain ⟨rfl, -⟩ := List.cons.inj same
    cases named
  · rename_i same
    obtain ⟨rfl, rfl⟩ := List.cons.inj same
    rw [named]

theorem isHigh_of_isLow {n : Nat} (lower : isLow n = true) : isHigh n = false := by
  simp only [isHigh, isLow, Bool.and_eq_true, Bool.and_eq_false_iff, decide_eq_true_eq, decide_eq_false_iff_not]
    at lower ⊢
  omega

theorem isLow_of_isHigh {n : Nat} (upper : isHigh n = true) : isLow n = false := by
  by_contra lower
  rw [isHigh_of_isLow (by simpa using lower)] at upper
  cases upper

theorem readText_escape {c : Char} {s' : List Char} (escaped : readEscape sound s = .ok (c, s')) :
    readText sound ('\\' :: s) = onto c (readText sound s') := by
  rw [readText, if_neg (by decide), if_pos rfl]
  split
  · rename_i failed
    cases escaped.symm.trans failed
  · rename_i read
    cases escaped.symm.trans read
    rfl

theorem readText_of_spells (spells : Spells sound cs s) : readText sound (s ++ '"' :: rest) = .ok (cs, rest) := by
  induction spells with
  | nil => rw [List.nil_append, readText, if_pos rfl]
  | @plain c cs s proper later ih =>
    obtain ⟨unquoted, unescaped, shown⟩ := proper
    rw [List.cons_append, readText, if_neg unquoted, if_neg unescaped, if_neg (Nat.not_lt.mpr shown), ih]
    rfl
  | letter named later ih =>
    rw [List.cons_append, List.cons_append, readText_escape (readEscape_letter named), ih]
    rfl
  | @number w x y z n cs s hex whole later ih =>
    have escaped : readEscape sound ('u' :: w :: x :: y :: z :: (s ++ '"' :: rest)) =
        .ok (Char.ofNat n, s ++ '"' :: rest) := by
      rw [readEscape, readUnicode, readHex_four hex]
      cases sound with
      | false => rfl
      | true => simp [whole rfl]
    simp only [List.cons_append]
    rw [readText_escape escaped, ih]
    rfl
  | @pair w x y z w' x' y' z' high low cs s keeps first upper second lower later ih =>
    have escaped : readEscape sound ('u' :: w :: x :: y :: z :: '\\' :: 'u' :: w' :: x' :: y' :: z' ::
        (s ++ '"' :: rest)) = .ok (pairChar high low, s ++ '"' :: rest) := by
      subst keeps
      simp [readEscape, readUnicode, readLow, readHex_four first, readHex_four second, upper, lower,
        isLow_of_isHigh upper]
    simp only [List.cons_append]
    rw [readText_escape escaped, ih]
    rfl

theorem hexValue?_digit {d : Nat} (small : d < 16) : hexValue? (Hex.digit d) = some d := by
  revert small
  revert d
  decide

theorem fourHex?_control {n : Nat} (small : n < 32) :
    fourHex? '0' '0' (Hex.digit (n / 16)) (Hex.digit (n % 16)) = some n := by
  have zero : hexValue? '0' = some 0 := by decide
  have front := hexValue?_digit (d := n / 16) (by omega)
  have back := hexValue?_digit (d := n % 16) (Nat.mod_lt n (by decide))
  simp only [fourHex?, zero, front, back, Option.bind_eq_bind, Option.bind_some, Option.some.injEq]
  omega

theorem spells_escape (sound : Bool) {c : Char} (later : Spells sound cs s) :
    Spells sound (c :: cs) (escape c ++ s) := by
  have letter {l d : Char} (same : c = d) (named : letterEscape? l = some d) :
      Spells sound (c :: cs) (['\\', l] ++ s) :=
    same ▸ .letter named later
  unfold escape
  split_ifs with quote backslash line carriage tab back feed control
  · exact letter quote rfl
  · exact letter backslash rfl
  · exact letter line rfl
  · exact letter carriage rfl
  · exact letter tab rfl
  · exact letter back rfl
  · exact letter feed rfl
  · have whole : isHigh c.toNat = false ∧ isLow c.toNat = false := by
      simp only [isHigh, isLow, Bool.and_eq_false_iff, decide_eq_false_iff_not]
      omega
    have number := Spells.number (fourHex?_control control) (fun _ => whole) later
    rwa [Char.ofNat_toNat] at number
  · exact .plain ⟨quote, backslash, Nat.not_lt.mp control⟩ later

theorem spells_escaped (sound : Bool) (cs : List Char) : Spells sound cs (cs.flatMap escape) := by
  induction cs with
  | nil => exact .nil
  | cons c cs ih => exact spells_escape sound ih

end RomLedger.Json
