import RomLedger.Catalog.Coercion
import RomLedger.Proofs.Text.Letters
import RomLedger.Proofs.Text.Numeral

/- Sizes read back from their decimal digits, and hashes of full length from their hexadecimal digits,
   whatever the case of the letters among these. A dash is read as the absent hash. -/
namespace RomLedger

namespace Numeral

theorem toList_natural (n : Nat) : (toString n).toList = Nat.toDigits 10 n := by simp [toString]

theorem natural_toString {limit n : Nat} (bound : n ≤ limit) :
    natural 10 limit (toString n).toList = .ok n := by
  have digits : ∀ c ∈ Nat.toDigits 10 n, c.isDigit = true := fun c member =>
    Nat.isDigit_of_mem_toDigits (by decide) (by decide) member
  rw [toList_natural]
  unfold natural
  split
  · rename_i none
    exact absurd none Nat.toDigits_ne_nil
  · rename_i rest plus
    exact absurd (digits '+' (by simp [plus])) (by decide)
  · exact magnitude_toDigits .tooLarge bound

end Numeral

namespace Hex

theorem plain_digit : ∀ n < 16, Text.isPlain (digit n) = true := by decide

theorem nibble_ofNat : ∀ n < 16, ∀ k < 128, (Char.ofNat k).toLower = digit n →
    nibble? (UInt8.ofNat k) = some n := by
  decide

theorem plain_of_cased {c : Char} {n : Nat} (small : n < 16) (cased : c.toLower = digit n) :
    Text.isPlain c = true := by
  rw [← Text.isPlain_toLower, cased]
  exact plain_digit n small

theorem nibble_of_cased {c : Char} {n : Nat} (small : n < 16) (cased : c.toLower = digit n) :
    nibble? (UInt8.ofNat c.toNat) = some n := by
  have plain := Text.toNat_of_isPlain (plain_of_cased small cased)
  rw [← Char.ofNat_toNat c] at cased
  exact nibble_ofNat n small c.toNat plain cased

theorem lower_digit : ∀ n < 16, (digit n).toLower = digit n := by decide

theorem high_lt (b : UInt8) : b.toNat / 16 < 16 := Nat.div_lt_of_lt_mul b.toNat_lt

theorem low_lt (b : UInt8) : b.toNat % 16 < 16 := Nat.mod_lt b.toNat (by decide)

theorem mem_encodeList {b : Bytes} {c : Char} (member : c ∈ encodeList b) : ∃ n < 16, c = digit n := by
  induction b with
  | nil => cases member
  | cons d rest ih =>
    rcases List.mem_cons.mp member with rfl | member
    · exact ⟨_, high_lt d, rfl⟩
    · rcases List.mem_cons.mp member with rfl | member
      · exact ⟨_, low_lt d, rfl⟩
      · exact ih member

theorem lower_encodeList (b : Bytes) : (encodeList b).map Char.toLower = encodeList b := by
  have same : ∀ c ∈ encodeList b, c.toLower = id c := by
    intro c member
    obtain ⟨n, small, rfl⟩ := mem_encodeList member
    exact lower_digit n small
  rw [List.map_congr_left same, List.map_id]

theorem length_encodeList (b : Bytes) : (encodeList b).length = 2 * b.length := by
  induction b with
  | nil => rfl
  | cons d rest ih =>
    simp only [encodeList, List.length_cons, ih]
    omega

theorem decodePairs_cased (at_ : Nat) {cs : List Char} {b : Bytes} (cased : cs.map Char.toLower = encodeList b) :
    decodePairs at_ (cs.map fun c => UInt8.ofNat c.toNat) = .ok b := by
  induction b generalizing cs at_ with
  | nil =>
    rw [List.map_eq_nil_iff.mp cased]
    rfl
  | cons d rest ih =>
    obtain ⟨h, more, rfl, high, others⟩ := List.map_eq_cons_iff.mp cased
    obtain ⟨l, more, rfl, low, others⟩ := List.map_eq_cons_iff.mp others
    have whole : 16 * (d.toNat / 16) + d.toNat % 16 = d.toNat := Nat.div_add_mod d.toNat 16
    simp only [List.map_cons, decodePairs, nibble_of_cased (high_lt d) high, nibble_of_cased (low_lt d) low,
      ih (at_ + 2) others, whole, UInt8.ofNat_toNat]
    rfl

theorem decode_cased {cs : List Char} {b : Bytes} (cased : cs.map Char.toLower = encodeList b) :
    decode (cs.map fun c => UInt8.ofNat c.toNat) = .ok b := by
  have count := congrArg List.length cased
  rw [List.length_map, length_encodeList] at count
  rw [decode, List.length_map, count, if_neg (by omega)]
  exact decodePairs_cased 0 cased

end Hex

namespace Coercion

theorem isDigit_toString {n : Nat} {c : Char} (member : c ∈ (toString n).toList) : c.isDigit = true := by
  rw [Numeral.toList_natural] at member
  exact Nat.isDigit_of_mem_toDigits (by decide) (by decide) member

theorem uncased_toString {n : Nat} {c : Char} (member : c ∈ (toString n).toList) : c.isAlpha = false := by
  have digit := isDigit_toString member
  grind [Char.isDigit, Char.isAlpha, Char.isUpper, Char.isLower]

theorem size_toString (n : UInt64) : size (toString n.toNat) = .ok n := by
  have bound : n.toNat ≤ Numeral.max64 := Nat.le_of_lt_succ n.toNat_lt
  have digits : toString n.toNat ≠ "-" := by
    intro dash
    exact absurd (isDigit_toString (n := n.toNat) (by rw [dash]; exact List.mem_cons_self)) (by decide)
  rw [size, if_neg digits, Numeral.natural_toString bound]
  exact congrArg Except.ok UInt64.ofNat_toNat

/-- The word for a hash: its digits, or a dash where there is none. -/
def hashWord : Option Bytes → String
  | none => "-"
  | some b => Hex.encode b

theorem hash_dash (width : Nat) : hash width "-" = .ok none := by
  have dash : Text.trim "-" = "-" := by decide
  rw [hash, dash, if_pos (.inl rfl)]

/-- A hash is read from its digits, of whatever case, if none of them was left out. -/
theorem hash_cased {width : Nat} {b : Bytes} {s : String} (full : 2 * b.length = width) (long : 2 ≤ width)
    (alike : s.toLower = (Hex.encode b).toLower) : hash width s = .ok (some b) := by
  have cased : s.toList.map Char.toLower = Hex.encodeList b := by
    rw [Text.toList_alike alike, Hex.encode, String.toList_ofList, Hex.lower_encodeList]
  have plain : ∀ c ∈ s.toList, Text.isPlain c = true := by
    intro c member
    have digit : c.toLower ∈ Hex.encodeList b := by
      rw [← cased]
      exact List.mem_map_of_mem member
    obtain ⟨n, small, same⟩ := Hex.mem_encodeList digit
    exact Hex.plain_of_cased small same
  have count : s.length = width := by
    rw [← String.length_toList, ← List.length_map, cased, Hex.length_encodeList, full]
  have solid : Text.trim s = s := by
    rw [Text.trim, Text.trimList_of_solid fun c member => Text.isBlank_of_isPlain (plain c member),
      String.ofList_toList]
  have present : ¬(s = "-" ∨ s = "") := by
    rintro (rfl | rfl)
    · exact absurd long (by rw [← count]; decide)
    · exact absurd long (by rw [← count]; decide)
  have bytes : padded width s = s.toList.map fun c => UInt8.ofNat c.toNat := by
    rw [padded, count, Nat.sub_self, List.replicate_zero, List.nil_append, Bytes.ofString,
      Utf8.flatMap_encode_of_ascii fun c member => Text.toNat_of_isPlain (plain c member)]
  rw [hash, solid, if_neg present, bytes, Hex.decode_cased cased]

theorem hash_hashWord {width : Nat} {h : Option Bytes} {s : String} (full : ∀ b ∈ h, 2 * b.length = width)
    (long : 2 ≤ width) (alike : s.toLower = (hashWord h).toLower) : hash width s = .ok h := by
  cases h with
  | none =>
    have uncased : ∀ c ∈ "-".toList, c.isAlpha = false := by
      intro c member
      obtain rfl := List.mem_singleton.mp member
      decide
    rw [Text.eq_of_alike (w := "-") alike uncased]
    exact hash_dash width
  | some b => exact hash_cased (full b rfl) long alike

end Coercion
end RomLedger
