import Mathlib
import RomLedger.Proofs.BloomFilter.Bits
import RomLedger.Proofs.BloomFilter.Codec

/-!
The bounds that every filter keeps. Its words are as many as its bits need, and there are bits to count
around; so whatever an item probes lies within them. Adding and asking are done here a second time, with a
fault for each division by zero and for each word that is not there: no filter comes to such a fault, wherever
it is from.
-/
namespace RomLedger.BloomFilter

def positions? (f : BloomFilter) (item : Bytes) : Option (List UInt64) :=
  if f.numBits = 0 then none else some (f.positions item)

def setBit? (words : Array UInt64) (p : UInt64) : Option (Array UInt64) :=
  if inside : wordIndex p < words.size then
    some (words.set (wordIndex p) (words[wordIndex p] ||| mask p))
  else none

def add? (f : BloomFilter) (item : Bytes) : Option BloomFilter := do
  let ps ← f.positions? item
  let words ← ps.foldlM setBit? f.words
  some { f with words := words }

def bit? (words : Array UInt64) (p : UInt64) : Option Bool := do
  let word ← words[wordIndex p]?
  some (word &&& mask p != 0)

/-- Looks at the positions in order, up to the first one that is not set. -/
def contains? (f : BloomFilter) (item : Bytes) : Option Bool := do
  let ps ← f.positions? item
  ps.allM (bit? f.words)

example : (⟨#[], 64, 1⟩ : BloomFilter).add? [] = none := by decide +kernel

variable {words : Array UInt64} {p : UInt64} {f : BloomFilter}

theorem setBit?_eq (inside : wordIndex p < words.size) : setBit? words p = some (setBit words p) := by
  rw [setBit?, dif_pos inside]
  congr 1
  apply Array.ext
  · simp [setBit]
  · intro i left right
    simp only [setBit, Array.getElem_set, Array.getElem_modify]
    split
    · rename_i same
      subst same
      rfl
    · rfl

theorem setBits?_eq {ps : List UInt64} (inside : ∀ p ∈ ps, wordIndex p < words.size) :
    ps.foldlM setBit? words = some (ps.foldl setBit words) := by
  induction ps generalizing words with
  | nil => rfl
  | cons p rest ih =>
    obtain ⟨first, later⟩ := List.forall_mem_cons.mp inside
    have size : (setBit words p).size = words.size := size_setBits words [p]
    rw [List.foldlM_cons, setBit?_eq first]
    exact ih (by rwa [size])

theorem bit?_eq (inside : wordIndex p < words.size) : bit? words p = some (bit words p) := by
  simp [bit?, bit, inside]

theorem allM_bit? {ps : List UInt64} (inside : ∀ p ∈ ps, wordIndex p < words.size) :
    ps.allM (bit? words) = some (ps.all (bit words)) := by
  induction ps with
  | nil => rfl
  | cons p rest ih =>
    obtain ⟨first, later⟩ := List.forall_mem_cons.mp inside
    rw [List.allM, bit?_eq first, List.all_cons]
    cases bit words p with
    | true => exact ih later
    | false => rfl

theorem Sound.numBits_ne_zero (sound : f.Sound) : f.numBits ≠ 0 := by
  intro zero
  have bits := sound.bits
  rw [zero] at bits
  exact absurd bits (by decide)

theorem lt_of_mem_positions (sound : f.Sound) {item : Bytes} (member : p ∈ f.positions item) : p < f.numBits := by
  obtain ⟨i, -, rfl⟩ := List.mem_map.mp member
  have some_ : 64 ≤ f.numBits.toNat := UInt64.le_iff_toNat_le.mp sound.bits
  rw [UInt64.lt_iff_toNat_lt, UInt64.toNat_mod]
  exact Nat.mod_lt _ (by omega)

theorem add?_eq (sound : f.Sound) (item : Bytes) : f.add? item = some (f.add item) := by
  have inside : ∀ p ∈ f.positions item, wordIndex p < f.words.size := fun p member => wordIndex_lt sound member
  simp [add?, positions?, sound.numBits_ne_zero, setBits?_eq inside, add]

theorem contains?_eq (sound : f.Sound) (item : Bytes) : f.contains? item = some (f.contains item) := by
  have inside : ∀ p ∈ f.positions item, wordIndex p < f.words.size := fun p member => wordIndex_lt sound member
  rw [contains?, positions?, if_neg sound.numBits_ne_zero]
  exact allM_bit? inside

theorem wordCount_eq (numBits : UInt64) : wordCount numBits = numBits.toNat ⌈/⌉ 64 := by
  rw [Nat.ceilDiv_eq_add_pred_div]
  rfl

/-- A filter that was made by size or by estimate or was loaded from whatever bytes, and has got any items since, has
the bits and the positions to an item that there must be and as many words as the bits need; every position of an
item lies within them, so that adding an item and asking for it come to no fault; and items change neither of the
two numbers nor the number of words. -/
theorem within_bounds (built : Built f) :
    (64 ≤ f.numBits.toNat ∧ 1 ≤ f.numHashes.toNat ∧ f.numHashes.toNat ≤ 32) ∧
    f.words.size = f.numBits.toNat ⌈/⌉ 64 ∧
    (∀ item, ∀ p ∈ f.positions item, p < f.numBits ∧ wordIndex p < f.words.size) ∧
    (∀ item, f.add? item = some (f.add item) ∧ f.contains? item = some (f.contains item)) ∧
    ∀ items, (f.addAll items).numBits = f.numBits ∧ (f.addAll items).numHashes = f.numHashes ∧
      (f.addAll items).words.size = f.words.size := by
  have sound := built.sound
  refine ⟨⟨?_, ?_, ?_⟩, ?_, ?_, ?_, ?_⟩
  · exact UInt64.le_iff_toNat_le.mp sound.bits
  · exact UInt32.le_iff_toNat_le.mp sound.least
  · exact UInt32.le_iff_toNat_le.mp sound.most
  · exact sound.words.trans (wordCount_eq f.numBits)
  · intro item p member
    exact ⟨lt_of_mem_positions sound member, wordIndex_lt sound member⟩
  · intro item
    exact ⟨add?_eq sound item, contains?_eq sound item⟩
  · intro items
    obtain ⟨bits, hashes⟩ := sizes_addAll f items
    refine ⟨bits, hashes, ?_⟩
    rw [(sound_addAll sound items).words, bits, sound.words]

theorem within_bounds_stray_bits :
    load (.steady strayArtifact (some 1) none) = .ok strayBits ∧
      strayBits.words.size = 65 ⌈/⌉ 64 ∧
      (strayBits.add (Bytes.ofString "a")).add? (Bytes.ofString "b") =
        some ((strayBits.add (Bytes.ofString "a")).add (Bytes.ofString "b")) ∧
      (strayBits.add (Bytes.ofString "a")).contains? (Bytes.ofString "c") = some false := by
  have decoded : decode strayArtifact = .ok strayBits := by decide +kernel
  have loaded : load (.steady strayArtifact (some 1) none) = .ok strayBits := load_eq_ok.mpr ⟨rfl, decoded⟩
  obtain ⟨-, words, -, -, -⟩ := within_bounds (.load loaded)
  obtain ⟨-, -, -, faultless, -⟩ := within_bounds (.add (.load loaded) (Bytes.ofString "a"))
  have absent : (strayBits.add (Bytes.ofString "a")).contains (Bytes.ofString "c") = false := by decide +kernel
  refine ⟨loaded, words, (faultless _).1, ?_⟩
  rw [(faultless _).2, absent]

end RomLedger.BloomFilter
