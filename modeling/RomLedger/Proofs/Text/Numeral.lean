import Mathlib
import RomLedger.Text.Basic
import RomLedger.Text.Numeral

/- Decimal numerals read back as the numbers they were written from, as long as these are in range, and have
   no white space to trim. -/
namespace RomLedger

theorem Text.dropWhile_isBlank {cs : List Char} (solid : ∀ c ∈ cs, isBlank c = false) :
    cs.dropWhile isBlank = cs := by
  cases cs with
  | nil => rfl
  | cons c rest => rw [List.dropWhile_cons_of_neg (by simp [solid c])]

theorem Text.trimList_of_solid {cs : List Char} (solid : ∀ c ∈ cs, isBlank c = false) :
    trimList cs = cs := by
  have back : ∀ c ∈ cs.reverse, isBlank c = false := fun c member => solid c (List.mem_reverse.mp member)
  rw [trimList, dropWhile_isBlank solid, dropWhile_isBlank back, List.reverse_reverse]

namespace Numeral

theorem digit?_digitChar {d : Nat} (small : d < 10) : digit? 10 d.digitChar = some d := by
  unfold digit?
  have low : 48 ≤ 48 + d ∧ 48 + d ≤ 57 := by omega
  simp only [Nat.toNat_digitChar_of_lt_ten small, low, and_self, ↓reduceIte, Nat.add_sub_cancel_left, small]

theorem digits_append {base limit acc n : Nat} {beyond : Fault} {cs ds : List Char}
    (front : digits base limit beyond acc cs = .ok n) :
    digits base limit beyond acc (cs ++ ds) = digits base limit beyond n ds := by
  induction cs generalizing acc with
  | nil =>
    cases front
    rfl
  | cons c rest ih =>
    simp only [List.cons_append, digits] at front ⊢
    split at front
    · cases front
    · split at front
      · rename_i within_
        rw [if_pos within_]
        exact ih front
      · cases front

theorem digits_toDigits {limit n : Nat} (beyond : Fault) (bound : n ≤ limit) :
    digits 10 limit beyond 0 (Nat.toDigits 10 n) = .ok n := by
  induction n using Nat.strongRecOn with
  | ind n ih =>
    rw [Nat.toDigits_eq_if (by decide)]
    split
    · rename_i small
      simp [digits, digit?_digitChar small, bound]
    · have front := ih (n / 10) (by omega) (by omega)
      have whole : 10 * (n / 10) + n % 10 = n := Nat.div_add_mod n 10
      rw [digits_append front]
      simp [digits, digit?_digitChar (Nat.mod_lt n (by decide)), whole, bound]

theorem magnitude_toDigits {limit n : Nat} (beyond : Fault) (bound : n ≤ limit) :
    magnitude 10 limit beyond (Nat.toDigits 10 n) = .ok n := by
  unfold magnitude
  split
  · rename_i none
    exact absurd none Nat.toDigits_ne_nil
  · exact digits_toDigits beyond bound

theorem digits_le {base limit acc n : Nat} {beyond : Fault} {cs : List Char} (start : acc ≤ limit)
    (read : digits base limit beyond acc cs = .ok n) : n ≤ limit := by
  induction cs generalizing acc with
  | nil =>
    cases read
    exact start
  | cons c rest ih =>
    simp only [digits] at read
    split at read
    · cases read
    · split at read
      · rename_i bound
        exact ih bound read
      · cases read

theorem magnitude_le {base limit n : Nat} {beyond : Fault} {cs : List Char}
    (read : magnitude base limit beyond cs = .ok n) : n ≤ limit := by
  unfold magnitude at read
  split at read
  · cases read
  · exact digits_le (Nat.zero_le limit) read

theorem exists_of_map {α β : Type} {f : α → β} {r : Except Fault α} {b : β} (held : r.map f = .ok b) :
    ∃ a, r = .ok a ∧ f a = b := by
  cases r with
  | error e => cases held
  | ok a => exact ⟨a, rfl, Except.ok.inj held⟩

theorem integer_bounds {limit : Nat} {n : Int} {cs : List Char} (read : integer limit cs = .ok n) :
    -limit - 1 ≤ n ∧ n ≤ limit := by
  unfold integer at read
  split at read
  · cases read
  · obtain ⟨k, size, rfl⟩ := exists_of_map read
    have bound := magnitude_le size
    rw [Int.ofNat_eq_natCast]
    omega
  · obtain ⟨m, held, rfl⟩ := exists_of_map read
    obtain ⟨k, size, rfl⟩ := exists_of_map held
    have bound := magnitude_le size
    omega
  · obtain ⟨k, size, rfl⟩ := exists_of_map read
    have bound := magnitude_le size
    rw [Int.ofNat_eq_natCast]
    omega

theorem toList_toString (n : Int) :
    (toString n).toList =
      if 0 ≤ n then Nat.toDigits 10 n.toNat else '-' :: Nat.toDigits 10 (-n).toNat := by
  rw [Int.toString_eq_repr, Int.repr_eq_if]
  split <;> simp

theorem integer_toString {limit : Nat} {n : Int} (low : -limit - 1 ≤ n) (high : n ≤ limit) :
    integer limit (toString n).toList = .ok n := by
  rw [toList_toString]
  split
  · rename_i positive
    have read := magnitude_toDigits .tooLarge (show n.toNat ≤ limit by omega)
    have digits : ∀ c ∈ Nat.toDigits 10 n.toNat, c.isDigit = true := fun c member =>
      Nat.isDigit_of_mem_toDigits (by decide) (by decide) member
    unfold integer
    split
    · rename_i none
      exact absurd none Nat.toDigits_ne_nil
    · rename_i rest plus
      exact absurd (digits '+' (by simp [plus])) (by decide)
    · rename_i rest minus
      exact absurd (digits '-' (by simp [minus])) (by decide)
    · rw [read]
      exact congrArg Except.ok (Int.toNat_of_nonneg positive)
  · have read := magnitude_toDigits .tooSmall (show (-n).toNat ≤ limit + 1 by omega)
    have back : -((-n).toNat : Int) = n := by omega
    simp only [integer, read]
    exact congrArg Except.ok back

theorem mem_toString {n : Int} {c : Char} (member : c ∈ (toString n).toList) : c.isDigit ∨ c = '-' := by
  have digit {k : Nat} (among : c ∈ Nat.toDigits 10 k) : c.isDigit = true :=
    Nat.isDigit_of_mem_toDigits (by decide) (by decide) among
  rw [toList_toString] at member
  split at member
  · exact .inl (digit member)
  · rcases List.mem_cons.mp member with sign | among
    · exact .inr sign
    · exact .inl (digit among)

theorem toNat_of_mem_toString {n : Int} {c : Char} (member : c ∈ (toString n).toList) :
    33 ≤ c.toNat ∧ c.toNat < 128 := by
  rcases mem_toString member with digit | rfl
  · simp only [Char.isDigit, Bool.and_eq_true, decide_eq_true_eq] at digit
    obtain ⟨low, high⟩ := digit
    exact ⟨Nat.le_trans (by decide) (UInt32.le_iff_toNat_le.mp low),
      Nat.lt_of_le_of_lt (UInt32.le_iff_toNat_le.mp high) (by decide)⟩
  · decide

theorem isBlank_of_mem_toString {n : Int} {c : Char} (member : c ∈ (toString n).toList) :
    Text.isBlank c = false := by
  have plain := toNat_of_mem_toString member
  simp [Text.isBlank, Text.blankRanges]
  omega

theorem trimList_toString (n : Int) : Text.trimList (toString n).toList = (toString n).toList :=
  Text.trimList_of_solid fun _ => isBlank_of_mem_toString

/-- The first digits of a number are the digits of what is left when the others are cut off. -/
theorem take_toDigits {n k : Nat} (some_ : 0 < k) (within_ : k ≤ (Nat.toDigits 10 n).length) :
    (Nat.toDigits 10 n).take k = Nat.toDigits 10 (n / 10 ^ ((Nat.toDigits 10 n).length - k)) := by
  induction n using Nat.strongRecOn with
  | ind n ih =>
    by_cases whole : k = (Nat.toDigits 10 n).length
    · simp [whole]
    · have digits := Nat.toDigits_eq_if (b := 10) (n := n) (by decide)
      by_cases small : n < 10
      · rw [digits, if_pos small, List.length_singleton] at within_ whole
        omega
      · rw [if_neg small] at digits
        rw [digits, List.length_append, List.length_singleton] at within_ whole ⊢
        have fewer : k ≤ (Nat.toDigits 10 (n / 10)).length := by omega
        have front := ih (n / 10) (by omega) fewer
        have missing : (Nat.toDigits 10 (n / 10)).length + 1 - k
            = (Nat.toDigits 10 (n / 10)).length - k + 1 := by omega
        rw [List.take_append_of_le_length fewer, front, missing, Nat.pow_succ', Nat.div_div_eq_div_mul]

theorem magnitude_take {limit n k : Nat} (beyond : Fault) (bound : n ≤ limit) (some_ : 0 < k) :
    magnitude 10 limit beyond ((Nat.toDigits 10 n).take k)
      = .ok (n / 10 ^ ((Nat.toDigits 10 n).length - k)) := by
  by_cases within_ : k ≤ (Nat.toDigits 10 n).length
  · rw [take_toDigits some_ within_]
    exact magnitude_toDigits beyond (Nat.le_trans (Nat.div_le_self ..) bound)
  · have none_missing : (Nat.toDigits 10 n).length - k = 0 := by omega
    rw [List.take_of_length_le (by omega), magnitude_toDigits beyond bound, none_missing, Nat.pow_zero,
      Nat.div_one]

/-- What is read where only the first `k` characters of a number were written: no number if they are
none, or a lone sign, and otherwise the number without its last digits. -/
def cut? (n : Int) (k : Nat) : Option Int :=
  if k = 0 ∨ n < 0 ∧ k = 1 then none else some (n.tdiv (10 ^ ((toString n).length - k)))

theorem integer_of_unsigned {limit : Nat} {cs : List Char} (unsigned : ∀ c ∈ cs, c.isDigit = true)
    (some_ : cs ≠ []) : integer limit cs = (magnitude 10 limit .tooLarge cs).map Int.ofNat := by
  unfold integer
  split
  · exact absurd rfl some_
  · exact absurd (unsigned '+' List.mem_cons_self) (by decide)
  · exact absurd (unsigned '-' List.mem_cons_self) (by decide)
  · rfl

theorem integer_take {limit : Nat} {n : Int} (low : -limit - 1 ≤ n) (high : n ≤ limit) (k : Nat) :
    (integer limit ((toString n).toList.take k)).toOption = cut? n k := by
  have count : (toString n).length = (toString n).toList.length := rfl
  have digits : ∀ m, ∀ c ∈ Nat.toDigits 10 m, c.isDigit = true := fun m c member =>
    Nat.isDigit_of_mem_toDigits (by decide) (by decide) member
  rw [cut?, count, toList_toString]
  split
  · rename_i positive
    obtain ⟨m, rfl⟩ := Int.eq_ofNat_of_zero_le positive
    cases k with
    | zero => rfl
    | succ k =>
      have front : (Nat.toDigits 10 m).take (k + 1) ≠ [] := by
        simp [List.take_eq_nil_iff, Nat.toDigits_ne_nil]
      rw [Int.toNat_natCast, integer_of_unsigned (fun c member => digits m c (List.mem_of_mem_take member)) front,
        magnitude_take .tooLarge (by omega) (Nat.succ_pos k)]
      have positive : ¬(m : Int) < 0 := by omega
      simp [Except.map, Except.toOption, positive]
  · rename_i negative
    obtain ⟨m, rfl⟩ : ∃ m : Nat, n = -(m : Int) := ⟨(-n).toNat, by omega⟩
    match k with
    | 0 => rfl
    | 1 =>
      rw [if_pos (.inr ⟨by omega, rfl⟩)]
      rfl
    | k + 2 =>
      have inside : m ≤ limit + 1 := by omega
      have read := magnitude_take .tooSmall inside (Nat.succ_pos k)
      rw [if_neg (by omega), Int.neg_neg, Int.toNat_natCast, List.take_succ_cons, integer, read,
        Int.neg_tdiv, List.length_cons, Nat.add_sub_add_right]
      rfl

end Numeral
end RomLedger
