import RomLedger.Catalog.Coercion
import RomLedger.Proofs.Text.Numeral

/-!
What the text of a size means, exactly. Digits behind an optional plus sign are read as the number that they
denote in base ten, never as another one; any other text is refused for its first fault from the left, a
character that is no digit or the digit at which the number is first too large.
-/
namespace RomLedger

namespace Numeral

def unsigned : List Char → List Char
  | '+' :: rest => rest
  | cs => cs

structure Reaches (limit acc : Nat) (cs front : List Char) (c : Char) : Prop where
  parts : ∃ back, cs = front ++ c :: back
  digits : ∀ d ∈ front, d.isDigit = true
  bounded : Nat.ofDigitChars 10 front acc ≤ limit

inductive Stops (limit acc : Nat) (cs : List Char) : Fault → Prop
  | invalidDigit {front : List Char} {c : Char} (reaches : Reaches limit acc cs front c)
      (other : c.isDigit = false) : Stops limit acc cs .invalidDigit
  | tooLarge {front : List Char} {c : Char} (reaches : Reaches limit acc cs front c) (digit : c.isDigit = true)
      (beyond : limit < Nat.ofDigitChars 10 (front ++ [c]) acc) : Stops limit acc cs .tooLarge

/-- Why a text is no number from 0 to `limit`. -/
inductive Faulty (limit : Nat) : List Char → Fault → Prop
  | empty : Faulty limit [] .empty
  | sign : Faulty limit ['+'] .invalidDigit
  | stops {cs : List Char} {e : Fault} (stops : Stops limit 0 (unsigned cs) e) : Faulty limit cs e

variable {limit acc n : Nat} {cs front : List Char} {c d : Char} {e : Fault}

theorem digit?_ten (c : Char) : digit? 10 c = if c.isDigit then some (c.toNat - '0'.toNat) else none := by
  have digit : c.isDigit = true ↔ 48 ≤ c.toNat ∧ c.toNat ≤ 57 := by
    simp only [Char.isDigit, Bool.and_eq_true, decide_eq_true_eq]
    exact and_congr UInt32.le_iff_toNat_le UInt32.le_iff_toNat_le
  unfold digit?
  dsimp only
  by_cases held : 48 ≤ c.toNat ∧ c.toNat ≤ 57
  · have small : c.toNat - 48 < 10 := by omega
    rw [if_pos held, if_pos small, if_pos (digit.mpr held)]
    rfl
  · rw [if_neg held, if_neg fun found => held (digit.mp found)]
    -- a letter counts ten or more
    split_ifs <;> first | rfl | omega

theorem le_ofDigitChars (cs : List Char) (acc : Nat) : acc ≤ Nat.ofDigitChars 10 cs acc := by
  rw [Nat.ofDigitChars_eq_ofDigitChars_zero]
  exact Nat.le_add_right_of_le (Nat.le_mul_of_pos_left acc (Nat.pow_pos (by decide)))

theorem not_stops_nil : ¬Stops limit acc [] e := by
  rintro (⟨⟨⟨back, parts⟩, -, -⟩, -⟩ | ⟨⟨⟨back, parts⟩, -, -⟩, -, -⟩) <;> simp at parts

theorem reaches_cons :
    Reaches limit acc (c :: cs) front d ↔ (front = [] ∧ d = c ∧ acc ≤ limit) ∨
      ∃ more, front = c :: more ∧ c.isDigit = true ∧ Reaches limit (10 * acc + (c.toNat - '0'.toNat)) cs more d := by
  constructor
  · rintro ⟨⟨back, parts⟩, digits, bounded⟩
    cases front with
    | nil => exact .inl ⟨rfl, (List.cons.inj parts).1.symm, bounded⟩
    | cons f more =>
      rw [List.cons_append] at parts
      obtain ⟨rfl, rest⟩ := List.cons.inj parts
      obtain ⟨digit, others⟩ := List.forall_mem_cons.mp digits
      rw [Nat.ofDigitChars_cons] at bounded
      exact .inr ⟨more, rfl, digit, ⟨back, rest⟩, others, bounded⟩
  · rintro (⟨rfl, rfl, start⟩ | ⟨more, rfl, digit, ⟨back, rfl⟩, digits, bounded⟩)
    · exact ⟨⟨cs, rfl⟩, by simp, start⟩
    · rw [← Nat.ofDigitChars_cons] at bounded
      exact ⟨⟨back, rfl⟩, List.forall_mem_cons.mpr ⟨digit, digits⟩, bounded⟩

theorem Reaches.first (start : acc ≤ limit) : Reaches limit acc (c :: cs) [] c :=
  reaches_cons.mpr (.inl ⟨rfl, rfl, start⟩)

theorem stops_other (start : acc ≤ limit) (other : c.isDigit = false) :
    Stops limit acc (c :: cs) e ↔ e = .invalidDigit := by
  constructor
  · rintro (- | ⟨reaches, digit, -⟩)
    · rfl
    · rcases reaches_cons.mp reaches with ⟨-, rfl, -⟩ | ⟨-, -, digit, -⟩ <;> simp_all
  · rintro rfl
    exact .invalidDigit (.first start) other

theorem stops_beyond (start : acc ≤ limit) (digit : c.isDigit = true)
    (beyond : limit < 10 * acc + (c.toNat - '0'.toNat)) : Stops limit acc (c :: cs) e ↔ e = .tooLarge := by
  constructor
  · rintro (⟨reaches, other⟩ | -)
    · rcases reaches_cons.mp reaches with ⟨-, rfl, -⟩ | ⟨more, -, -, later⟩
      · simp [digit] at other
      · have := le_ofDigitChars more (10 * acc + (c.toNat - '0'.toNat))
        have := later.bounded
        omega
    · rfl
  · rintro rfl
    refine .tooLarge (.first start) digit ?_
    rw [List.nil_append, Nat.ofDigitChars_cons, Nat.ofDigitChars_nil]
    exact beyond

theorem stops_digit (digit : c.isDigit = true) (bounded : 10 * acc + (c.toNat - '0'.toNat) ≤ limit) :
    Stops limit acc (c :: cs) e ↔ Stops limit (10 * acc + (c.toNat - '0'.toNat)) cs e := by
  constructor
  · rintro (⟨reaches, other⟩ | ⟨reaches, another, beyond⟩)
    · rcases reaches_cons.mp reaches with ⟨-, rfl, -⟩ | ⟨more, rfl, -, later⟩
      · simp [digit] at other
      · exact .invalidDigit later other
    · rcases reaches_cons.mp reaches with ⟨rfl, rfl, -⟩ | ⟨more, rfl, -, later⟩
      · rw [List.nil_append, Nat.ofDigitChars_cons, Nat.ofDigitChars_nil] at beyond
        omega
      · rw [List.cons_append, Nat.ofDigitChars_cons] at beyond
        exact .tooLarge later another beyond
  · rintro (⟨later, other⟩ | ⟨later, another, beyond⟩)
    · exact .invalidDigit (reaches_cons.mpr (.inr ⟨_, rfl, digit, later⟩)) other
    · rw [← Nat.ofDigitChars_cons, ← List.cons_append] at beyond
      exact .tooLarge (reaches_cons.mpr (.inr ⟨_, rfl, digit, later⟩)) another beyond

theorem digits_ok_iff (start : acc ≤ limit) :
    digits 10 limit .tooLarge acc cs = .ok n ↔
      (∀ c ∈ cs, c.isDigit = true) ∧ Nat.ofDigitChars 10 cs acc = n ∧ n ≤ limit := by
  induction cs generalizing acc with
  | nil =>
    simp only [digits, Except.ok.injEq, Nat.ofDigitChars_nil, List.not_mem_nil, false_implies, implies_true,
      true_and]
    exact ⟨fun same => ⟨same, same ▸ start⟩, And.left⟩
  | cons c cs ih =>
    rw [digits, digit?_ten, List.forall_mem_cons, Nat.ofDigitChars_cons]
    cases digit : c.isDigit with
    | false => simp
    | true =>
      simp only [↓reduceIte, true_and]
      by_cases bounded : 10 * acc + (c.toNat - '0'.toNat) ≤ limit
      · rw [if_pos bounded, ih bounded]
      · rw [if_neg bounded]
        have more := le_ofDigitChars cs (10 * acc + (c.toNat - '0'.toNat))
        simp only [reduceCtorEq, false_iff]
        rintro ⟨-, rfl, inside⟩
        omega

theorem digits_error_iff (start : acc ≤ limit) :
    digits 10 limit .tooLarge acc cs = .error e ↔ Stops limit acc cs e := by
  induction cs generalizing acc with
  | nil => simp [digits, not_stops_nil]
  | cons c cs ih =>
    rw [digits, digit?_ten]
    cases digit : c.isDigit with
    | false =>
      rw [stops_other start digit]
      simp [eq_comm]
    | true =>
      simp only [↓reduceIte]
      by_cases bounded : 10 * acc + (c.toNat - '0'.toNat) ≤ limit
      · rw [if_pos bounded, ih bounded, stops_digit digit bounded]
      · rw [if_neg bounded, stops_beyond start digit (Nat.lt_of_not_le bounded)]
        simp [eq_comm]

theorem natural_eq (some_ : unsigned cs ≠ []) :
    natural 10 limit cs = digits 10 limit .tooLarge 0 (unsigned cs) := by
  unfold natural
  split
  · exact absurd rfl some_
  · rename_i rest
    unfold magnitude
    split
    · exact absurd rfl some_
    · rfl
  · rename_i some_ unsigned_
    have same : unsigned cs = cs := by
      unfold unsigned
      split
      · exact absurd rfl (unsigned_ _)
      · rfl
    unfold magnitude
    rw [same]
    split
    · exact absurd rfl some_
    · rfl

theorem eq_of_unsigned_nil (none_ : unsigned cs = []) : cs = [] ∨ cs = ['+'] := by
  unfold unsigned at none_
  split at none_
  · exact .inr (congrArg _ none_)
  · exact .inl none_

theorem natural_ok_iff :
    natural 10 limit cs = .ok n ↔ unsigned cs ≠ [] ∧ (∀ c ∈ unsigned cs, c.isDigit = true) ∧
      Nat.ofDigitChars 10 (unsigned cs) 0 = n ∧ n ≤ limit := by
  by_cases none_ : unsigned cs = []
  · rcases eq_of_unsigned_nil none_ with rfl | rfl <;> simp [natural, magnitude, unsigned]
  · rw [natural_eq none_, digits_ok_iff (Nat.zero_le limit), ne_eq, and_iff_right none_]

theorem natural_error_iff : natural 10 limit cs = .error e ↔ Faulty limit cs e := by
  by_cases none_ : unsigned cs = []
  · constructor
    · rcases eq_of_unsigned_nil none_ with rfl | rfl
      · rintro ⟨⟩
        exact .empty
      · rintro ⟨⟩
        exact .sign
    · rintro (- | - | stops)
      · rfl
      · rfl
      · rw [none_] at stops
        exact absurd stops not_stops_nil
  · rw [natural_eq none_, digits_error_iff (Nat.zero_le limit)]
    constructor
    · exact .stops
    · rintro (- | - | stops)
      · exact absurd rfl none_
      · exact absurd rfl none_
      · exact stops

end Numeral

namespace Coercion

open Numeral (unsigned)

variable {s : String} {n : UInt64} {e : BadInteger}

theorem size_of_ne_dash (dash : s ≠ "-") :
    size s = ((Numeral.natural 10 (2 ^ 64 - 1) s.toList).map UInt64.ofNat).mapError (BadInteger.mk s) := by
  have limit : Numeral.max64 = 2 ^ 64 - 1 := by decide
  rw [size, if_neg dash, limit]
  cases Numeral.natural 10 (2 ^ 64 - 1) s.toList <;> rfl

theorem size_ok_of_ne_dash (dash : s ≠ "-") :
    size s = .ok n ↔ Numeral.natural 10 (2 ^ 64 - 1) s.toList = .ok n.toNat := by
  rw [size_of_ne_dash dash]
  cases read : Numeral.natural 10 (2 ^ 64 - 1) s.toList with
  | ok m =>
    obtain ⟨-, -, -, small⟩ := Numeral.natural_ok_iff.mp read
    have whole : (UInt64.ofNat m).toNat = m := UInt64.toNat_ofNat_of_lt (show m < 2 ^ 64 by omega)
    simp only [Except.map, Except.mapError, Except.ok.injEq]
    rw [← UInt64.toNat_inj, whole]
  | error fault => simp [Except.map, Except.mapError]

theorem size_error_of_ne_dash (dash : s ≠ "-") :
    size s = .error e ↔ e.value = s ∧ Numeral.natural 10 (2 ^ 64 - 1) s.toList = .error e.fault := by
  rw [size_of_ne_dash dash]
  obtain ⟨text, cause⟩ := e
  cases Numeral.natural 10 (2 ^ 64 - 1) s.toList with
  | ok m => simp [Except.map, Except.mapError]
  | error fault => simp [Except.map, Except.mapError, eq_comm]

/-- A dash is size zero. Any other text is a size exactly if it is a number below 2 ^ 64 in digits, behind one plus
sign or none, and it is that number then; otherwise it is refused for its first fault from the left. -/
theorem size_exact (s : String) :
    (∀ n, size s = .ok n ↔ s = "-" ∧ n = 0 ∨
      unsigned s.toList ≠ [] ∧ (∀ c ∈ unsigned s.toList, c.isDigit = true) ∧
        Nat.ofDigitChars 10 (unsigned s.toList) 0 = n.toNat) ∧
    ∀ e, size s = .error e ↔ s ≠ "-" ∧ e.value = s ∧ Numeral.Faulty (2 ^ 64 - 1) s.toList e.fault := by
  by_cases dash : s = "-"
  · subst dash
    have undigested : ¬∀ c ∈ unsigned "-".toList, c.isDigit = true := fun digits =>
      absurd (digits '-' List.mem_cons_self) (by decide)
    have zero : size "-" = .ok 0 := rfl
    refine ⟨fun n => ?_, fun e => ?_⟩
    · simp only [zero, Except.ok.injEq, true_and, undigested, false_and, and_false, or_false]
      exact eq_comm
    · simp only [zero, reduceCtorEq, ne_eq, not_true, false_and]
  · refine ⟨fun n => ?_, fun e => ?_⟩
    · have bounded : n.toNat ≤ 2 ^ 64 - 1 := Nat.le_sub_one_of_lt n.toNat_lt
      rw [size_ok_of_ne_dash dash, Numeral.natural_ok_iff, and_iff_left bounded,
        or_iff_right fun zero => dash zero.1]
    · rw [size_error_of_ne_dash dash, Numeral.natural_error_iff, and_iff_right dash]

end Coercion
end RomLedger
