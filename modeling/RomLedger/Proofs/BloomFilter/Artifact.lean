import RomLedger.BloomFilter.Artifact
import RomLedger.Proofs.Bytes.Sha1

/- The stored form of a filter reads back as the filter, and no proper beginning of it reads at all: the
   header says how many words there are. Every filter that is made, grown or read is within the bounds of the
   stored form. -/
namespace RomLedger

namespace BloomFilter

structure Sound (f : BloomFilter) : Prop where
  words : f.words.size = wordCount f.numBits
  bits : minBits ≤ f.numBits
  least : 1 ≤ f.numHashes
  most : f.numHashes ≤ maxHashes

theorem sound_ofSizes (numBits : UInt64) (numHashes : UInt32) : (ofSizes numBits numHashes).Sound where
  words := by simp [ofSizes]
  bits := by
    change minBits ≤ if numBits ≤ minBits then minBits else numBits
    split
    · exact UInt64.le_refl _
    · rename_i large
      exact UInt64.le_of_lt (UInt64.not_le.mp large)
  least := by
    change 1 ≤ if 1 ≤ min numHashes maxHashes then min numHashes maxHashes else 1
    split
    · assumption
    · exact UInt32.le_refl _
  most := by
    change (if 1 ≤ min numHashes maxHashes then min numHashes maxHashes else 1) ≤ maxHashes
    split
    · change (if numHashes ≤ maxHashes then numHashes else maxHashes) ≤ maxHashes
      split
      · assumption
      · exact UInt32.le_refl _
    · decide

theorem size_setBits (words : Array UInt64) (positions : List UInt64) :
    (positions.foldl setBit words).size = words.size := by
  induction positions generalizing words with
  | nil => rfl
  | cons p rest ih => rw [List.foldl_cons, ih, setBit, Array.size_modify]

theorem sound_add {f : BloomFilter} (sound : f.Sound) (item : Bytes) : (f.add item).Sound where
  words := (size_setBits ..).trans sound.words
  bits := sound.bits
  least := sound.least
  most := sound.most

theorem sound_addAll {f : BloomFilter} (sound : f.Sound) (items : List Bytes) :
    (f.addAll items).Sound := by
  induction items generalizing f with
  | nil => exact sound
  | cons item rest ih => exact ih (sound_add sound item)

def header (f : BloomFilter) : Bytes :=
  magic ++ Words.encode 4 f.numHashes.toNat ++ Words.encode 8 f.numBits.toNat

theorem length_magic : magic.length = 8 := rfl

@[simp] theorem length_header (f : BloomFilter) : f.header.length = headerLength := by
  simp [header, length_magic, headerLength]

theorem body_eq (f : BloomFilter) : f.body = f.header ++ Words.encode64s f.words := rfl

theorem length_encode (f : BloomFilter) :
    f.encode.length = headerLength + 8 * f.words.size + trailerLength := by
  simp [encode, body_eq, Words.length_encode64s, Sha1.length_digest, trailerLength, Nat.add_assoc]

/-- What is read behind a header: the words, if there are as many bytes as it says. -/
theorem decodeBody_header {f : BloomFilter} (sound : f.Sound) (rest : Bytes) :
    decodeBody (f.header ++ rest) =
      if rest.length = 8 * wordCount f.numBits then .ok ⟨Words.decode64s rest, f.numBits, f.numHashes⟩
      else .error .inconsistent := by
  have shape : f.header ++ rest = magic ++
      (Words.encode 4 f.numHashes.toNat ++ (Words.encode 8 f.numBits.toNat ++ rest)) := by
    simp [header]
  have opening : (f.header ++ rest).take 8 = magic := by
    rw [shape]
    exact List.take_left' length_magic
  have from8 : (f.header ++ rest).drop 8
      = Words.encode 4 f.numHashes.toNat ++ (Words.encode 8 f.numBits.toNat ++ rest) := by
    rw [shape]
    exact List.drop_left' length_magic
  have from12 : (f.header ++ rest).drop 12 = Words.encode 8 f.numBits.toNat ++ rest := by
    rw [show 12 = 8 + 4 from rfl, ← List.drop_drop, from8]
    exact List.drop_left' (Words.length_encode ..)
  have from20 : (f.header ++ rest).drop headerLength = rest := List.drop_left' (length_header f)
  have hashes : ((f.header ++ rest).drop 8).take 4 = Words.encode 4 f.numHashes.toNat := by
    rw [from8]
    exact List.take_left' (Words.length_encode ..)
  have bits : ((f.header ++ rest).drop 12).take 8 = Words.encode 8 f.numBits.toNat := by
    rw [from12]
    exact List.take_left' (Words.length_encode ..)
  have some_hash : f.numHashes ≠ 0 := by
    intro none
    have := sound.least
    simp [none] at this
  simp only [decodeBody, opening, hashes, bits, from20, Words.ofNat_decode_encode_32,
    Words.ofNat_decode_encode_64, some_hash, UInt32.not_lt.mpr sound.most, UInt64.not_lt.mpr sound.bits]
  by_cases all : rest.length = 8 * wordCount f.numBits <;> simp [all]

theorem decode_encode {f : BloomFilter} (sound : f.Sound) : decode f.encode = .ok f := by
  have whole : f.body.length + trailerLength - trailerLength = f.body.length := by omega
  have enough : ¬f.encode.length < headerLength + trailerLength := by
    rw [length_encode]
    omega
  have cut : f.encode.length - trailerLength = f.body.length := by
    simp [encode, Sha1.length_digest, trailerLength]
  have front : f.encode.take f.body.length = f.body := List.take_left
  have back : f.encode.drop f.body.length = Sha1.digest f.body := List.drop_left
  simp only [decode, enough, cut, front, back, ne_eq, not_true_eq_false, ↓reduceIte]
  rw [body_eq, decodeBody_header sound, if_pos (by rw [Words.length_encode64s, sound.words]),
    Words.decode64s_encode64s]

/-- No proper beginning of a stored filter reads. -/
theorem decode_take {f : BloomFilter} (sound : f.Sound) {n : Nat} (proper : n < f.encode.length) :
    ∃ e, decode (f.encode.take n) = .error e := by
  have count : (f.encode.take n).length = n := by
    rw [List.length_take]
    omega
  simp only [decode, count]
  split
  · exact ⟨_, rfl⟩
  · rename_i enough
    split
    · exact ⟨_, rfl⟩
    · rw [length_encode] at proper
      have shorter : (f.encode.take n).take (n - trailerLength)
          = f.header ++ (Words.encode64s f.words).take (n - trailerLength - headerLength) := by
        rw [List.take_take, Nat.min_eq_left (by omega), encode, List.take_append_of_le_length, body_eq,
          List.take_append, length_header, List.take_of_length_le]
        · rw [length_header]
          omega
        · rw [body_eq, List.length_append, length_header, Words.length_encode64s]
          omega
      have few : ((Words.encode64s f.words).take (n - trailerLength - headerLength)).length
          ≠ 8 * wordCount f.numBits := by
        rw [List.length_take, Words.length_encode64s, ← sound.words]
        omega
      rw [shorter, decodeBody_header sound, if_neg few]
      exact ⟨_, rfl⟩

theorem sound_of_decode {b : Bytes} {f : BloomFilter} (read : decode b = .ok f) : f.Sound := by
  unfold decode at read
  dsimp only at read
  split at read
  · cases read
  · split at read
    · cases read
    · unfold decodeBody at read
      split at read
      · cases read
      · dsimp only at read
        split at read
        · cases read
        · rename_i bounds
          cases read
          simp only [not_or, UInt32.not_lt, UInt64.not_lt, Decidable.not_not] at bounds
          obtain ⟨some_hash, most, bits, length⟩ := bounds
          refine ⟨?_, bits, ?_, most⟩
          · rw [Words.decode64s, Words.size_decode64sFrom, length]
            simp
          · refine UInt32.le_iff_toNat_le.mpr (Nat.one_le_iff_ne_zero.mpr fun zero => some_hash ?_)
            exact UInt32.toNat_inj.mp zero

end BloomFilter
end RomLedger
