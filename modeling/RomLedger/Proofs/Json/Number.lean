import Mathlib
import RomLedger.Json.Value
import RomLedger.Json.Number
import RomLedger.Proofs.Feed.View
import RomLedger.Proofs.Text.Numeral

/- Numbers as they are written. A number that nobody asked for may have any number of digits, a fraction and
   an exponent; an integer that is written is read back if its magnitude fits a word. -/
namespace RomLedger.Json

/-- Nothing that goes on with a number. -/
def EndsNumber (rest : List Char) : Prop :=
  ∀ c ∈ rest.head?, isDigit c = false ∧ c ≠ '.' ∧ isExponentMark c = false

/-- The digits in front of a point; a zero stands alone. -/
inductive IsWhole : List Char → Prop
  | zero : IsWhole ['0']
  | digits {c : Char} {ds : List Char} (first : isDigit c = true) (proper : c ≠ '0')
      (all : ∀ d ∈ ds, isDigit d = true) : IsWhole (c :: ds)

inductive IsFraction : List Char → Prop
  | none : IsFraction []
  | digits {ds : List Char} (some_ : ds ≠ []) (all : ∀ d ∈ ds, isDigit d = true) : IsFraction ('.' :: ds)

inductive IsExponent : List Char → Prop
  | none : IsExponent []
  | digits {e : Char} {sign ds : List Char} (mark : isExponentMark e = true)
      (signed : sign = [] ∨ sign = ['+'] ∨ sign = ['-']) (some_ : ds ≠ []) (all : ∀ d ∈ ds, isDigit d = true) :
      IsExponent (e :: (sign ++ ds))

inductive IsNumber : List Char → Prop
  | mk {sign whole fraction exponent : List Char} (signed : sign = [] ∨ sign = ['-']) (whole_ : IsWhole whole)
      (fraction_ : IsFraction fraction) (exponent_ : IsExponent exponent) :
      IsNumber (sign ++ (whole ++ (fraction ++ exponent)))

variable {rest ds : List Char}

theorem EndsNumber.digit (ends : EndsNumber rest) : ∀ c ∈ rest.head?, isDigit c = false :=
  fun c front => (ends c front).1

theorem skipExponent_digits {sign : List Char} (signed : sign = [] ∨ sign = ['+'] ∨ sign = ['-']) (some_ : ds ≠ [])
    (all : ∀ d ∈ ds, isDigit d = true) (ends : EndsNumber rest) :
    skipExponent (sign ++ (ds ++ rest)) = .ok rest := by
  obtain ⟨d, ds, rfl⟩ := List.exists_cons_of_ne_nil some_
  obtain ⟨first, later⟩ := List.forall_mem_cons.mp all
  have split : (splitSign (sign ++ (d :: ds ++ rest))).2 = d :: ds ++ rest := by
    rcases signed with rfl | rfl | rfl
    · rw [List.nil_append, List.cons_append]
      unfold splitSign
      split
      · rename_i same
        obtain ⟨rfl, -⟩ := List.cons.inj same
        cases first
      · rename_i same
        obtain ⟨rfl, -⟩ := List.cons.inj same
        cases first
      · rfl
    · rfl
    · rfl
  rw [skipExponent, split, List.cons_append]
  dsimp only
  rw [if_pos first, dropWhile_front later ends.digit]

theorem skipScale_exponent {exponent : List Char} (exponent_ : IsExponent exponent) (ends : EndsNumber rest) :
    skipScale (exponent ++ rest) = .ok rest := by
  cases exponent_ with
  | none =>
    cases rest with
    | nil => rfl
    | cons c rest =>
      have unmarked := (ends c rfl).2.2
      rw [List.nil_append, skipScale, unmarked]
      rfl
  | digits mark signed some_ all =>
    rw [List.cons_append, List.append_assoc, skipScale, if_pos mark]
    exact skipExponent_digits signed some_ all ends

theorem head_exponent {exponent : List Char} (exponent_ : IsExponent exponent) (ends : EndsNumber rest) :
    ∀ c ∈ (exponent ++ rest).head?, isDigit c = false ∧ c ≠ '.' := by
  cases exponent_ with
  | none => exact fun c front => ⟨(ends c front).1, (ends c front).2.1⟩
  | @digits e sign ds mark signed some_ all =>
    rintro _ ⟨⟩
    have letter : e = 'e' ∨ e = 'E' := by simpa [isExponentMark] using mark
    rcases letter with rfl | rfl <;> decide

theorem skipFraction_parts {fraction exponent : List Char} (fraction_ : IsFraction fraction)
    (exponent_ : IsExponent exponent) (ends : EndsNumber rest) :
    skipFraction (fraction ++ (exponent ++ rest)) = .ok rest := by
  cases fraction_ with
  | none =>
    rw [List.nil_append, ← skipScale_exponent exponent_ ends]
    unfold skipFraction
    split
    · rename_i point
      have front := (head_exponent exponent_ ends '.' (by rw [point]; rfl)).2
      exact absurd rfl front
    · rfl
  | @digits ds some_ all =>
    have stops : ∀ c ∈ (exponent ++ rest).head?, isDigit c = false := fun c front =>
      (head_exponent exponent_ ends c front).1
    obtain ⟨d, ds, rfl⟩ := List.exists_cons_of_ne_nil some_
    have split : splitDigits (d :: ds ++ (exponent ++ rest)) = (d :: ds, exponent ++ rest) := by
      rw [splitDigits, takeWhile_front all stops, dropWhile_front all stops]
    rw [List.cons_append, skipFraction, split]
    exact skipScale_exponent exponent_ ends

theorem head_fraction {fraction exponent : List Char} (fraction_ : IsFraction fraction)
    (exponent_ : IsExponent exponent) (ends : EndsNumber rest) :
    ∀ c ∈ (fraction ++ (exponent ++ rest)).head?, isDigit c = false := by
  cases fraction_ with
  | none => exact fun c front => (head_exponent exponent_ ends c front).1
  | digits some_ all =>
    rintro _ ⟨⟩
    rfl

theorem skipEnd_eq {s : List Char} (stops : ∀ c ∈ s.head?, isDigit c = false) : skipEnd s = skipFraction s := by
  cases s with
  | nil => rfl
  | cons c s =>
    rw [skipEnd, stops c rfl]
    rfl

theorem skipMagnitude_whole {whole tail : List Char} (whole_ : IsWhole whole)
    (stops : ∀ c ∈ tail.head?, isDigit c = false) : skipMagnitude (whole ++ tail) = skipFraction tail := by
  rw [← skipEnd_eq stops]
  cases whole_ with
  | zero => rfl
  | digits first proper all =>
    rw [List.cons_append, skipMagnitude, first, leadingDigits, if_neg proper, splitDigits, dropWhile_front all stops]
    rfl

theorem head_whole {whole : List Char} (whole_ : IsWhole whole) (tail : List Char) :
    ∃ c s, whole ++ tail = c :: s ∧ isDigit c = true := by
  cases whole_ with
  | zero => exact ⟨_, _, rfl, rfl⟩
  | digits first proper all => exact ⟨_, _, rfl, first⟩

theorem skipNumber_of_isNumber {t : List Char} (number : IsNumber t) (ends : EndsNumber rest) :
    skipNumber (t ++ rest) = .ok rest := by
  obtain ⟨signed, whole_, fraction_, exponent_⟩ := number
  rename_i sign whole fraction exponent
  have magnitude : skipMagnitude (whole ++ (fraction ++ (exponent ++ rest))) = .ok rest := by
    rw [skipMagnitude_whole whole_ (head_fraction fraction_ exponent_ ends)]
    exact skipFraction_parts fraction_ exponent_ ends
  simp only [List.append_assoc]
  rcases signed with rfl | rfl
  · obtain ⟨c, s, front, digit⟩ := head_whole whole_ (fraction ++ (exponent ++ rest))
    rw [List.nil_append, ← magnitude, front]
    unfold skipNumber
    split
    · rename_i same
      obtain ⟨rfl, -⟩ := List.cons.inj same
      cases digit
    · rfl
  · exact magnitude

theorem head_isNumber {t : List Char} (number : IsNumber t) :
    ∃ c s, t = c :: s ∧ (c = '-' ∨ isDigit c = true) := by
  obtain ⟨signed, whole_, fraction_, exponent_⟩ := number
  rename_i sign whole fraction exponent
  rcases signed with rfl | rfl
  · obtain ⟨c, s, front, digit⟩ := head_whole whole_ (fraction ++ exponent)
    exact ⟨c, s, front, .inr digit⟩
  · exact ⟨_, _, rfl, .inl rfl⟩

theorem isDigit_digitChar {d : Nat} (small : d < 10) : isDigit d.digitChar = true ∧ digitValue d.digitChar = d := by
  have value := Nat.toNat_digitChar_of_lt_ten small
  simp only [isDigit, digitValue, value, Bool.and_eq_true, decide_eq_true_eq]
  omega

theorem accumulate_append {acc n : Nat} {cs : List Char} (front : accumulate acc cs = (n, 0)) :
    accumulate acc (cs ++ ds) = accumulate n ds := by
  induction cs generalizing acc with
  | nil =>
    cases front
    rfl
  | cons c cs ih =>
    simp only [List.cons_append, accumulate] at front ⊢
    split at front
    · rename_i within_
      rw [if_pos within_]
      exact ih front
    · simp at front

theorem accumulate_toDigits {n : Nat} (bound : n ≤ Numeral.max64) : accumulate 0 (Nat.toDigits 10 n) = (n, 0) := by
  induction n using Nat.strongRecOn with
  | ind n ih =>
    rw [Nat.toDigits_eq_if (by decide)]
    split
    · rename_i small
      simp [accumulate, (isDigit_digitChar small).2, bound]
    · have front := ih (n / 10) (by omega) (by omega)
      have whole : 10 * (n / 10) + n % 10 = n := Nat.div_add_mod n 10
      rw [accumulate_append front]
      simp [accumulate, (isDigit_digitChar (Nat.mod_lt n (by decide))).2, whole, bound]

theorem toDigits_of_pos {n : Nat} (pos : 0 < n) :
    ∃ c ds, Nat.toDigits 10 n = c :: ds ∧ isDigit c = true ∧ c ≠ '0' ∧ ∀ d ∈ ds, isDigit d = true := by
  induction n using Nat.strongRecOn with
  | ind n ih =>
    rw [Nat.toDigits_eq_if (by decide)]
    split
    · rename_i small
      obtain ⟨digit, value⟩ := isDigit_digitChar small
      refine ⟨_, [], rfl, digit, fun zero => ?_, List.forall_mem_nil _⟩
      rw [zero] at value
      exact absurd value (Nat.ne_of_lt pos)
    · rename_i large
      obtain ⟨c, ds, front, digit, proper, all⟩ := ih (n / 10) (by omega) (by omega)
      have last := (isDigit_digitChar (Nat.mod_lt n (by decide : 0 < 10))).1
      exact ⟨c, ds ++ [_], by rw [front]; rfl, digit, proper, List.forall_mem_append.mpr ⟨all, by simpa using last⟩⟩

theorem isWhole_toDigits (n : Nat) : IsWhole (Nat.toDigits 10 n) := by
  rcases Nat.eq_zero_or_pos n with rfl | pos
  · exact .zero
  · obtain ⟨c, ds, same, digit, proper, all⟩ := toDigits_of_pos pos
    rw [same]
    exact .digits digit proper all

theorem isNumber_integerText (n : Int) : IsNumber (integerText n) := by
  cases n with
  | ofNat n =>
    have number := IsNumber.mk (.inl rfl) (isWhole_toDigits n) .none .none
    simp only [List.nil_append, List.append_nil] at number
    exact number
  | negSucc n =>
    have number := IsNumber.mk (.inr rfl) (isWhole_toDigits (n + 1)) .none .none
    simp only [List.cons_append, List.nil_append, List.append_nil] at number
    exact number

theorem leadingDigits_whole {c : Char} {ds : List Char} (whole_ : IsWhole (c :: ds)) (ends : EndsNumber rest) :
    leadingDigits c (ds ++ rest) = (c :: ds, rest) := by
  cases whole_ with
  | zero => rfl
  | digits first proper all =>
    rw [leadingDigits, if_neg proper, splitDigits, takeWhile_front all ends.digit, dropWhile_front all ends.digit]

theorem readEnd_whole (negative : Bool) (n : Nat) (ends : EndsNumber rest) :
    readEnd negative n 0 rest = .ok (whole negative n, rest) := by
  cases rest with
  | nil => rfl
  | cons c rest =>
    obtain ⟨digit, point, mark⟩ := ends c rfl
    simp [readEnd, digit, point, mark]

theorem readMagnitude_toDigits (negative : Bool) {n : Nat} (bound : n ≤ Numeral.max64) (ends : EndsNumber rest) :
    readMagnitude negative (Nat.toDigits 10 n ++ rest) = .ok (whole negative n, rest) := by
  have whole_ := isWhole_toDigits n
  have value := accumulate_toDigits bound
  obtain ⟨c, s, front, digit⟩ := head_whole whole_ []
  rw [List.append_nil] at front
  rw [front] at whole_ value ⊢
  rw [List.cons_append, readMagnitude, digit, leadingDigits_whole whole_ ends]
  dsimp only
  rw [value]
  exact readEnd_whole negative n ends

/-- An integer that is written is read as it is, as long as its magnitude fits a word, or half of one below zero. -/
theorem readNumber_integerText {n : Int} (low : -(Numeral.max63 : Int) - 1 ≤ n) (high : n ≤ Numeral.max64)
    (ends : EndsNumber rest) :
    readNumber (integerText n ++ rest) =
      .ok (if 0 ≤ n then .natural n.toNat else .negative (-n).toNat, rest) := by
  cases n with
  | ofNat n =>
    have bound : n ≤ Numeral.max64 := by simpa using high
    have magnitude := readMagnitude_toDigits false bound ends
    obtain ⟨c, s, front, digit⟩ := head_whole (isWhole_toDigits n) rest
    have plain : readNumber (Nat.toDigits 10 n ++ rest) = readMagnitude false (Nat.toDigits 10 n ++ rest) := by
      rw [front]
      unfold readNumber
      split
      · rename_i same
        obtain ⟨rfl, -⟩ := List.cons.inj same
        cases digit
      · rfl
    exact plain.trans magnitude
  | negSucc n =>
    have bound : n + 1 ≤ Numeral.max63 + 1 := by omega
    have magnitude := readMagnitude_toDigits true (n := n + 1) (Nat.le_trans bound (by decide)) ends
    have held : ¬(n + 1 = 0 ∨ Numeral.max63 + 1 < n + 1) := by omega
    rw [whole, if_neg (by decide), if_neg held] at magnitude
    exact magnitude

end RomLedger.Json
