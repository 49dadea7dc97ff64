import RomLedger.Proofs.BloomFilter.Codec
import RomLedger.Proofs.BloomFilter.Membership

/-!
A filter is the set of the positions that its items probe. Adding an item sets the bits at its positions and
disturbs no other bit, in the same word or elsewhere; so the bits of a filter tell which positions were
probed, and neither the order of the items nor how often one comes leaves a trace.
-/
namespace RomLedger.BloomFilter

/-- A bit by its number, the lowest bit of the first word first. -/
def bitAt (words : Array UInt64) (j : Nat) : Bool := (words.getD (j / 64) 0).toNat.testBit (j % 64)

theorem bit_eq_bitAt (words : Array UInt64) (p : UInt64) : bit words p = bitAt words p.toNat := by
  have index : wordIndex p = p.toNat / 64 := UInt64.toNat_div p 64
  have place : (mask p).toNat = 2 ^ (p.toNat % 64) := by rw [toNat_mask, UInt64.toNat_mod]; rfl
  rw [bit, bitAt, index]
  generalize words.getD (p.toNat / 64) 0 = w
  have masked : (w &&& mask p).toNat = (w.toNat.testBit (p.toNat % 64)).toNat * 2 ^ (p.toNat % 64) := by
    rw [UInt64.toNat_and, place, Nat.and_two_pow]
  rw [bne, Bool.eq_iff_iff, Bool.not_eq_true', beq_eq_false_iff_ne, Ne, ← UInt64.toNat_inj, masked]
  cases w.toNat.testBit (p.toNat % 64) <;> simp

theorem testBit_or_mask (w p : UInt64) (k : Nat) :
    (w ||| mask p).toNat.testBit k = (w.toNat.testBit k || decide (p.toNat % 64 = k)) := by
  rw [UInt64.toNat_or, toNat_mask, Nat.testBit_or, Nat.testBit_two_pow, UInt64.toNat_mod]
  rfl

theorem bitAt_setBit {words : Array UInt64} {p : UInt64} (inside : wordIndex p < words.size) (j : Nat) :
    bitAt (setBit words p) j = (bitAt words j || decide (p.toNat = j)) := by
  have index : wordIndex p = p.toNat / 64 := UInt64.toNat_div p 64
  by_cases within_ : j / 64 < words.size
  · rw [bitAt, getD_setBit words p within_, bitAt, index]
    split
    · rename_i same
      rw [testBit_or_mask]
      congr 2
      simp only [eq_iff_iff]
      omega
    · rename_i other
      have apart : p.toNat ≠ j := by
        rintro rfl
        exact other rfl
      simp [apart]
  · have apart : p.toNat ≠ j := by
      rintro rfl
      exact within_ (index ▸ inside)
    have outside (ws : Array UInt64) (size : ws.size = words.size) : ws.getD (j / 64) 0 = 0 := by
      rw [Array.getD_eq_getD_getElem?, Array.getElem?_eq_none (by omega), Option.getD_none]
    rw [bitAt, bitAt, outside _ rfl, outside (setBit words p) (size_setBits words [p])]
    simp [apart]

theorem bitAt_setBits {words : Array UInt64} {ps : List UInt64}
    (inside : ∀ p ∈ ps, wordIndex p < words.size) (j : Nat) :
    bitAt (ps.foldl setBit words) j = true ↔ bitAt words j = true ∨ ∃ p ∈ ps, p.toNat = j := by
  induction ps generalizing words with
  | nil => simp
  | cons p rest ih =>
    obtain ⟨first, later⟩ := List.forall_mem_cons.mp inside
    rw [List.foldl_cons, ih (by simpa [setBit] using later), bitAt_setBit first]
    simp [or_assoc]

theorem words_ext {v w : Array UInt64} (size : v.size = w.size) (same : ∀ j, bitAt v j = bitAt w j) :
    v = w := by
  refine Array.ext size fun i left right => UInt64.toNat_inj.mp (Nat.eq_of_testBit_eq fun k => ?_)
  by_cases few : k < 64
  · have at_ := same (64 * i + k)
    have word : (64 * i + k) / 64 = i := by omega
    have place : (64 * i + k) % 64 = k := by omega
    simpa [bitAt, word, place, Array.getD_eq_getD_getElem?, left, right] using at_
  · have wide : 2 ^ 64 ≤ 2 ^ k := Nat.pow_le_pow_right (by decide) (by omega)
    rw [Nat.testBit_lt_two_pow (Nat.lt_of_lt_of_le v[i].toNat_lt wide),
      Nat.testBit_lt_two_pow (Nat.lt_of_lt_of_le w[i].toNat_lt wide)]

def probe (digest : Bytes) (positions i : Nat) : Nat :=
  (Words.decode (digest.take 8) + i * (Words.decode ((digest.drop 8).take 8) ||| 1)) % 2 ^ 64 % positions

def Probes (f : BloomFilter) (item : Bytes) (j : Nat) : Prop :=
  ∃ i < f.numHashes.toNat, probe (Sha1.digest item) f.numBits.toNat i = j

theorem toNat_ofNat_decode {b : Bytes} (few : b.length ≤ 8) :
    (UInt64.ofNat (Words.decode b)).toNat = Words.decode b := by
  have small := Words.decode_lt b
  have most : Nat.pow 256 b.length ≤ 256 ^ 8 := Nat.pow_le_pow_right (by decide) few
  exact UInt64.toNat_ofNat_of_lt' (Nat.lt_of_lt_of_le small most)

theorem probes_iff (f : BloomFilter) (item : Bytes) (j : Nat) :
    f.Probes item j ↔ ∃ p ∈ f.positions item, p.toNat = j := by
  have start := toNat_ofNat_decode (b := (Sha1.digest item).take 8) (by simp)
  have stride := toNat_ofNat_decode (b := ((Sha1.digest item).drop 8).take 8) (by simp)
  have stop (i : Nat) (few : i < f.numHashes.toNat) :
      ((UInt64.ofNat (Words.decode ((Sha1.digest item).take 8)) + UInt64.ofNat i *
        (UInt64.ofNat (Words.decode (((Sha1.digest item).drop 8).take 8)) ||| 1)) % f.numBits).toNat
        = probe (Sha1.digest item) f.numBits.toNat i := by
    rw [UInt64.toNat_mod, UInt64.toNat_add, UInt64.toNat_mul, UInt64.toNat_or, start, stride,
      UInt64.toNat_ofNat', probe]
    simp [Nat.add_mod, Nat.mul_mod]
  simp only [Probes, positions, List.mem_map, List.mem_range]
  constructor
  · rintro ⟨i, few, rfl⟩
    exact ⟨_, ⟨i, few, rfl⟩, stop i few⟩
  · rintro ⟨_, ⟨i, few, rfl⟩, rfl⟩
    exact ⟨i, few, (stop i few).symm⟩

theorem sizes_addAll (f : BloomFilter) (items : List Bytes) :
    (f.addAll items).numBits = f.numBits ∧ (f.addAll items).numHashes = f.numHashes := by
  induction items generalizing f with
  | nil => exact ⟨rfl, rfl⟩
  | cons item rest ih => exact ih (f.add item)

theorem probes_addAll (f : BloomFilter) (items : List Bytes) : (f.addAll items).Probes = f.Probes := by
  funext item j
  rw [Probes, Probes, (sizes_addAll f items).1, (sizes_addAll f items).2]

theorem Sound.probes {f : BloomFilter} (sound : f.Sound) (item : Bytes) : ∃ j, f.Probes item j :=
  ⟨_, 0, UInt32.le_iff_toNat_le.mp sound.least, rfl⟩

theorem bitAt_ofSizes (numBits : UInt64) (numHashes : UInt32) (j : Nat) :
    bitAt (ofSizes numBits numHashes).words j = false := by
  simp only [bitAt, ofSizes, Array.getD_eq_getD_getElem?, Array.getElem?_replicate]
  split <;> simp

theorem contains_iff (f : BloomFilter) (x : Bytes) :
    f.contains x = true ↔ ∀ j, f.Probes x j → bitAt f.words j = true := by
  simp only [contains, List.all_eq_true, hasBit_eq, bit_eq_bitAt, probes_iff]
  constructor
  · rintro set _ ⟨p, member, rfl⟩
    exact set p member
  · exact fun set p member => set _ ⟨p, member, rfl⟩

theorem bitAt_addAll {f : BloomFilter} (sound : f.Sound) (items : List Bytes) (j : Nat) :
    bitAt (f.addAll items).words j = true ↔ bitAt f.words j = true ∨ ∃ item ∈ items, f.Probes item j := by
  induction items generalizing f with
  | nil => simp [addAll]
  | cons item rest ih =>
    have one : bitAt (f.add item).words j = true ↔ bitAt f.words j = true ∨ f.Probes item j := by
      rw [add, bitAt_setBits (fun p member => wordIndex_lt sound member), probes_iff]
    have probes : (f.add item).Probes = f.Probes := rfl
    rw [addAll, List.foldl_cons, ← addAll, ih (sound_add sound item), one, probes]
    simp [or_assoc]

theorem eq_of_bitAt {f g : BloomFilter} (soundf : f.Sound) (soundg : g.Sound) (bits : f.numBits = g.numBits)
    (hashes : f.numHashes = g.numHashes) (same : ∀ j, bitAt f.words j = bitAt g.words j) : f = g := by
  have words := words_ext (by rw [soundf.words, soundg.words, bits]) same
  obtain ⟨_, _, _⟩ := f
  obtain ⟨_, _, _⟩ := g
  cases words
  cases bits
  cases hashes
  rfl

/-- The bits of a filter are the positions that its items probe, and nothing else decides what it contains;
so filters of one size with the same items are equal. -/
theorem holds_exactly (numBits : UInt64) (numHashes : UInt32) (items : List Bytes) :
    let empty := ofSizes numBits numHashes
    let f := empty.addAll items
    (∀ j, bitAt f.words j = true ↔ ∃ item ∈ items, empty.Probes item j) ∧
    (∀ x, f.contains x = true ↔ ∀ j, empty.Probes x j → ∃ item ∈ items, empty.Probes item j) ∧
    (∀ x ∈ items, f.contains x = true) ∧ (items = [] → ∀ x, f.contains x = false) ∧
    ∀ others : List Bytes, (∀ x, x ∈ others ↔ x ∈ items) → empty.addAll others = f := by
  intro empty f
  have sound : empty.Sound := sound_ofSizes numBits numHashes
  have bits (xs : List Bytes) (j : Nat) :
      bitAt (empty.addAll xs).words j = true ↔ ∃ item ∈ xs, empty.Probes item j := by
    rw [bitAt_addAll sound, bitAt_ofSizes]
    simp
  have found (x : Bytes) :
      f.contains x = true ↔ ∀ j, empty.Probes x j → ∃ item ∈ items, empty.Probes item j := by
    simp only [contains_iff, f, probes_addAll, bits]
  refine ⟨bits items, found, fun x member => ?_, fun none_ x => ?_, fun others same => ?_⟩
  · exact (found x).mpr fun j probed => ⟨x, member, probed⟩
  · obtain ⟨j, probed⟩ := sound.probes x
    rw [← Bool.not_eq_true, found]
    intro all
    obtain ⟨item, member, -⟩ := all j probed
    rw [none_] at member
    cases member
  · obtain ⟨size, hashes⟩ := sizes_addAll empty items
    obtain ⟨size', hashes'⟩ := sizes_addAll empty others
    refine eq_of_bitAt (sound_addAll sound others) (sound_addAll sound items) (size'.trans size.symm)
      (hashes'.trans hashes.symm) fun j => ?_
    rw [Bool.eq_iff_iff, bits, bits]
    simp only [same]

theorem holds_exactly_repeated :
    let a := Bytes.ofString "a"
    let b := Bytes.ofString "b"
    (∀ x, x ∈ [b, a] ↔ x ∈ [a, b, a]) ∧ (ofSizes 70 3).addAll [b, a] = (ofSizes 70 3).addAll [a, b, a] ∧
      ((ofSizes 70 3).addAll [a, b, a]).contains b = true ∧
      ((ofSizes 70 3).addAll [a, b, a]).contains (Bytes.ofString "c") = false := by
  intro a b
  obtain ⟨-, -, added, -, same⟩ := holds_exactly 70 3 [a, b, a]
  have members : ∀ x, x ∈ [b, a] ↔ x ∈ [a, b, a] := by
    intro x
    simp only [List.mem_cons, List.not_mem_nil, or_false]
    tauto
  exact ⟨members, same [b, a] members, added b (by decide), by decide +kernel⟩

end RomLedger.BloomFilter
