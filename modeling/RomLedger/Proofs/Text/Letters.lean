import Mathlib
import RomLedger.Proofs.Bytes.Utf8
import RomLedger.Text.Basic

/- ASCII words, and words that differ at most in the case of their ASCII letters. -/
namespace RomLedger.Text

/-- The characters of words: ASCII letters and digits, and the dash. -/
def isPlain (c : Char) : Bool := c.isAlphanum || c == '-'

theorem isPlain_toLower (c : Char) : isPlain c.toLower = isPlain c := by
  unfold isPlain
  grind [Char.toLower, Char.isAlphanum, Char.isAlpha, Char.isUpper, Char.isLower, Char.isDigit]

theorem toNat_of_isPlain {c : Char} (plain : isPlain c = true) : c.toNat < 128 := by
  simp only [isPlain, Char.isAlphanum, Char.isAlpha, Char.isUpper, Char.isLower, Char.isDigit,
    UInt32.le_iff_toNat_le, ge_iff_le, Bool.or_eq_true, Bool.and_eq_true, decide_eq_true_eq, beq_iff_eq]
    at plain
  change c.val.toNat < 128
  rcases plain with ((⟨_, high⟩ | ⟨_, high⟩) | ⟨_, high⟩) | rfl
  · exact Nat.lt_of_le_of_lt high (by decide)
  · exact Nat.lt_of_le_of_lt high (by decide)
  · exact Nat.lt_of_le_of_lt high (by decide)
  · decide

theorem isBlank_ofNat : ∀ n < 128, isPlain (Char.ofNat n) = true → isBlank (Char.ofNat n) = false := by
  decide

theorem isBlank_of_isPlain {c : Char} (plain : isPlain c = true) : isBlank c = false := by
  have solid := isBlank_ofNat c.toNat (toNat_of_isPlain plain)
  rw [Char.ofNat_toNat] at solid
  exact solid plain

theorem toList_alike {s w : String} (alike : s.toLower = w.toLower) :
    s.toList.map Char.toLower = w.toList.map Char.toLower := by
  have same := congrArg String.toList alike
  rwa [String.toLower, String.toLower, String.toList_map, String.toList_map] at same

theorem plain_of_alike {s w : String} (alike : s.toLower = w.toLower)
    (plain : ∀ c ∈ w.toList, isPlain c = true) : ∀ c ∈ s.toList, isPlain c = true := by
  intro c member
  have lower : c.toLower ∈ w.toList.map Char.toLower := by
    rw [← toList_alike alike]
    exact List.mem_map_of_mem member
  obtain ⟨d, among, same⟩ := List.mem_map.mp lower
  rw [← isPlain_toLower, ← same, isPlain_toLower]
  exact plain d among

theorem ne_of_alike {s w : String} (alike : s.toLower = w.toLower) (some_ : w ≠ "") : s ≠ "" := by
  rintro rfl
  have none : w.toList.map Char.toLower = [] := (toList_alike alike).symm
  exact some_ (String.toList_eq_nil_iff.mp (List.map_eq_nil_iff.mp none))

theorem toLower_inj_of_not_isAlpha {c d : Char} (alike : c.toLower = d.toLower) (uncased : d.isAlpha = false) :
    c = d := by
  grind [Char.toLower, Char.isAlpha, Char.isUpper, Char.isLower]

theorem eq_of_alike {s w : String} (alike : s.toLower = w.toLower) (uncased : ∀ c ∈ w.toList, c.isAlpha = false) :
    s = w := by
  have same := toList_alike alike
  rw [← String.toList_inj]
  generalize s.toList = cs at same
  generalize w.toList = ds at same uncased
  induction ds generalizing cs with
  | nil => exact List.map_eq_nil_iff.mp same
  | cons d ds ih =>
    obtain ⟨c, rest, rfl, first, others⟩ := List.map_eq_cons_iff.mp same
    obtain ⟨front, later⟩ := List.forall_mem_cons.mp uncased
    rw [toLower_inj_of_not_isAlpha first front, ih rest others later]

end RomLedger.Text
