import Mathlib
import RomLedger.Proofs.BloomFilter.Attempts

/- A filter has no false negatives: what was added is found, and stays found whatever is added later. Adding
   only sets bits, and the bits of an item lie within the words of a sound filter. -/
namespace RomLedger.BloomFilter

open Disk

def bit (words : Array UInt64) (p : UInt64) : Bool := words.getD (wordIndex p) 0 &&& mask p != 0

theorem hasBit_eq (f : BloomFilter) (p : UInt64) : f.hasBit p = bit f.words p := rfl

theorem toNat_mask (p : UInt64) : (mask p).toNat = 2 ^ (p % 64).toNat := by
  have few : (p % 64).toNat < 64 := by
    rw [UInt64.toNat_mod]
    exact Nat.mod_lt _ (by decide)
  simp only [mask, UInt64.toNat_shiftLeft, UInt64.reduceToNat, Nat.one_shiftLeft, Nat.mod_eq_of_lt few]
  exact Nat.mod_eq_of_lt (Nat.pow_lt_pow_right (by decide) few)

theorem mask_ne_zero (p : UInt64) : mask p ≠ 0 := by
  intro zero
  have value := toNat_mask p
  rw [zero] at value
  exact absurd value (Nat.ne_of_lt (Nat.two_pow_pos _))

theorem or_and_right (a b c : UInt64) : (a ||| b) &&& c = a &&& c ||| b &&& c := by
  apply UInt64.toNat_inj.mp
  simp only [UInt64.toNat_and, UInt64.toNat_or, Nat.and_or_distrib_right]

theorem getD_setBit (words : Array UInt64) (p : UInt64) {i : Nat} (inside : i < words.size) :
    (setBit words p).getD i 0 =
      if wordIndex p = i then words.getD i 0 ||| mask p else words.getD i 0 := by
  simp only [setBit, Array.getD_eq_getD_getElem?, Array.getElem?_modify, Array.getElem?_eq_getElem inside]
  split <;> rfl

theorem bit_setBit {words : Array UInt64} {p : UInt64} (inside : wordIndex p < words.size) :
    bit (setBit words p) p = true := by
  rw [bit, getD_setBit words p inside, if_pos rfl, or_and_right, UInt64.and_self]
  apply bne_iff_ne.mpr
  intro zero
  exact mask_ne_zero p (UInt64.or_eq_zero_iff.mp zero).2

theorem inside_of_bit {words : Array UInt64} {q : UInt64} (set : bit words q = true) :
    wordIndex q < words.size := by
  apply Nat.lt_of_not_le
  intro outside
  rw [bit, Array.getD_eq_getD_getElem?, Array.getElem?_eq_none outside] at set
  simp at set

theorem bit_setBit_of_bit {words : Array UInt64} {q : UInt64} (p : UInt64) (set : bit words q = true) :
    bit (setBit words p) q = true := by
  rw [bit, getD_setBit words p (inside_of_bit set)]
  split
  · rw [or_and_right]
    apply bne_iff_ne.mpr
    intro zero
    exact bne_iff_ne.mp set (UInt64.or_eq_zero_iff.mp zero).1
  · exact set

theorem bit_setBits_of_bit {words : Array UInt64} {q : UInt64} (ps : List UInt64)
    (set : bit words q = true) : bit (ps.foldl setBit words) q = true := by
  induction ps generalizing words with
  | nil => exact set
  | cons p rest ih => exact ih (bit_setBit_of_bit p set)

theorem bit_setBits {words : Array UInt64} {ps : List UInt64} {q : UInt64} (member : q ∈ ps)
    (inside : wordIndex q < words.size) : bit (ps.foldl setBit words) q = true := by
  induction ps generalizing words with
  | nil => cases member
  | cons p rest ih =>
    rcases List.mem_cons.mp member with rfl | later
    · exact bit_setBits_of_bit rest (bit_setBit inside)
    · apply ih later
      rw [setBit, Array.size_modify]
      exact inside

theorem wordIndex_lt {f : BloomFilter} (sound : f.Sound) {item : Bytes} {p : UInt64}
    (member : p ∈ f.positions item) : wordIndex p < f.words.size := by
  obtain ⟨i, -, rfl⟩ := List.mem_map.mp member
  have some_ : 64 ≤ f.numBits.toNat := UInt64.le_iff_toNat_le.mp sound.bits
  rw [sound.words, wordIndex, wordCount, UInt64.toNat_div, UInt64.toNat_mod]
  generalize UInt64.toNat (_ + _) = n
  have below : n % f.numBits.toNat < f.numBits.toNat := Nat.mod_lt _ (by omega)
  change n % f.numBits.toNat / 64 < _
  omega

theorem contains_add {f : BloomFilter} (sound : f.Sound) (item : Bytes) :
    (f.add item).contains item = true := by
  apply List.all_eq_true.mpr
  intro p member
  rw [hasBit_eq]
  exact bit_setBits member (wordIndex_lt sound member)

theorem contains_add_of_contains {f : BloomFilter} {item : Bytes} (other : Bytes)
    (found : f.contains item = true) : (f.add other).contains item = true := by
  apply List.all_eq_true.mpr
  intro p member
  rw [hasBit_eq]
  exact bit_setBits_of_bit _ (List.all_eq_true.mp found p member)

theorem contains_addAll_of_contains {f : BloomFilter} {item : Bytes} (others : List Bytes)
    (found : f.contains item = true) : (f.addAll others).contains item = true := by
  induction others generalizing f with
  | nil => exact found
  | cons other rest ih => exact ih (contains_add_of_contains other found)

theorem contains_addAll {f : BloomFilter} (sound : f.Sound) {items : List Bytes} {item : Bytes}
    (member : item ∈ items) : (f.addAll items).contains item = true := by
  induction items generalizing f with
  | nil => cases member
  | cons first rest ih =>
    rcases List.mem_cons.mp member with rfl | later
    · exact contains_addAll_of_contains rest (contains_add sound item)
    · exact ih (sound_add sound first) later

/-- The two files of a root do not rule an item out: a filter that is read from them contains it. -/
def Contents.Admits (c : Contents) (item : Bytes) : Prop :=
  ∀ f, c.filter? = some f → f.contains item = true

theorem Contents.Admits.rotate {c : Contents} {item : Bytes} (admits : c.Admits item) :
    c.rotate.Admits item := by
  intro f read
  apply admits
  have current : parse? c.current = some f := read
  rw [Contents.filter?, current, Option.some_or]

/-- Writing a filter that contains an item where there is no current file, up to wherever the write stops:
a proper beginning of the file is not read, so that the backup still decides. -/
theorem Contents.Admits.write {c : Contents} {f : BloomFilter} {item : Bytes} (admits : c.Admits item)
    (absent : c.current = none) (sound : f.Sound) (found : f.contains item = true) (o : Outcome) :
    (c.write f.encode o).Admits item := by
  have behind : ∀ b, parse? b = none → Contents.Admits ⟨b, c.backup⟩ item := by
    intro b unread g read
    apply admits
    rw [Contents.filter?, absent]
    rw [Contents.filter?, unread] at read
    exact read
  have whole : Contents.Admits ⟨some f.encode, c.backup⟩ item := by
    intro g read
    rw [Contents.filter?, parse?_encode sound, Option.some_or] at read
    exact Option.some.inj read ▸ found
  rcases o with _ | _ | _ | n
  · exact whole
  · exact admits
  · exact behind none rfl
  · by_cases proper : n < f.encode.length
    · exact behind _ (parse?_take sound proper)
    · rw [Contents.write, List.take_of_length_le (Nat.le_of_not_lt proper)]
      exact whole

theorem admits_store {σ : Type} {d : Disk σ} {root : Path} {place : Place} {f : BloomFilter} {item : Bytes}
    (housed : Housed d root place) (admits : (contents d place).Admits item) (sound : f.Sound)
    (found : f.contains item = true) : (contents (store d root f).2 place).Admits item := by
  rw [contents_store housed]
  split
  · split
    · exact admits.rotate.write rfl sound found _
    · exact admits
  · rename_i absent
    exact admits.write (Option.not_isSome_iff_eq_none.mp absent) sound found _

end RomLedger.BloomFilter
