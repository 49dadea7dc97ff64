import RomLedger.Proofs.BloomFilter.Artifact
import RomLedger.Proofs.Feed.View

/-!
The stored form is the only one that reads. What loads as a filter is, byte for byte, what the filter is
stored as, set bits beyond its last position included; so different artifacts never load as equal filters.
-/
namespace RomLedger

namespace BloomFilter

theorem body_of_decodeBody {b : Bytes} {f : BloomFilter} (enough : headerLength ≤ b.length)
    (read : decodeBody b = .ok f) : f.body = b := by
  simp only [headerLength] at enough
  unfold decodeBody at read
  split at read
  · cases read
  · rename_i opening
    dsimp only at read
    split at read
    · cases read
    · rename_i bounds
      cases read
      simp only [not_or, Decidable.not_not] at opening bounds
      have hashes : ((b.drop 8).take 4).length = 4 := by simp; omega
      have bits : ((b.drop 12).take 8).length = 8 := by simp; omega
      have whole : 8 ∣ (b.drop headerLength).length := ⟨_, bounds.2.2.2⟩
      have cut8 : b.take 8 ++ b.drop 8 = b := List.take_append_drop 8 b
      have cut12 : (b.drop 8).take 4 ++ b.drop 12 = b.drop 8 := by
        have := List.take_append_drop 4 (b.drop 8)
        rwa [List.drop_drop] at this
      have cut20 : (b.drop 12).take 8 ++ b.drop headerLength = b.drop 12 := by
        have := List.take_append_drop 8 (b.drop 12)
        rwa [List.drop_drop] at this
      rw [body, ← opening, Words.encode_ofNat_decode_32 hashes, Words.encode_ofNat_decode_64 bits,
        Words.encode64s_decode64s whole, List.append_assoc, List.append_assoc, cut20, cut12, cut8]

theorem encode_of_decode {b : Bytes} {f : BloomFilter} (read : decode b = .ok f) : f.encode = b := by
  unfold decode at read
  dsimp only at read
  split at read
  · cases read
  · rename_i enough
    split at read
    · cases read
    · rename_i sealed
      have front : headerLength ≤ (b.take (b.length - trailerLength)).length := by
        rw [List.length_take]
        omega
      rw [encode, body_of_decodeBody front read, Decidable.not_not.mp sealed, List.take_append_drop]

theorem load_eq (feed : Feed) :
    load feed = if feed.failing then .error .io else (decode feed.rest).mapError .invalid := by
  obtain ⟨taken, stop, -, -, -⟩ := Reader.drain_follows (.ofFeed feed)
  have fails : (Reader.ofFeed feed).failing = feed.failing := rfl
  have view : (Reader.ofFeed feed).view = feed.rest := rfl
  unfold load
  simp only [stop, taken, fails, view, List.nil_append]
  cases feed.failing <;> rfl

theorem load_eq_ok {feed : Feed} {f : BloomFilter} :
    load feed = .ok f ↔ feed.failing = false ∧ decode feed.rest = .ok f := by
  rw [load_eq]
  cases feed.failing with
  | true => simp
  | false =>
    rw [if_neg Bool.false_ne_true]
    cases decode feed.rest with
    | error e =>
      constructor
      · rintro ⟨⟩
      · rintro ⟨-, ⟨⟩⟩
    | ok g =>
      rw [Except.ok.injEq]
      exact ⟨fun loaded => ⟨rfl, Except.ok.inj loaded⟩, fun both => congrArg Except.ok both.2⟩

inductive Built : BloomFilter → Prop where
  | ofSizes (numBits : UInt64) (numHashes : UInt32) : Built (ofSizes numBits numHashes)
  | ofEstimate (items : UInt64) (rate : Float) : Built (ofEstimate items rate)
  | load {feed : Feed} {f : BloomFilter} (loaded : load feed = .ok f) : Built f
  | add {f : BloomFilter} (built : Built f) (item : Bytes) : Built (f.add item)

theorem Built.sound {f : BloomFilter} (built : Built f) : f.Sound := by
  induction built with
  | ofSizes numBits numHashes => exact sound_ofSizes numBits numHashes
  | ofEstimate items rate => exact sound_ofSizes _ _
  | load loaded => exact sound_of_decode (load_eq_ok.mp loaded).2
  | add built item ih => exact sound_add ih item

/-- A feed loads as a filter exactly if it delivers the stored form of that filter and the filter is one
that is built; so what loads as equal filters is equal. -/
theorem load_exact :
    (∀ (feed : Feed) (f : BloomFilter),
      load feed = .ok f ↔ feed.failing = false ∧ Built f ∧ feed.rest = f.encode) ∧
      ∀ (feed feed' : Feed) (f : BloomFilter), load feed = .ok f → load feed' = .ok f →
        feed.rest = feed'.rest := by
  have delivers {feed : Feed} {f : BloomFilter} (loaded : load feed = .ok f) : feed.rest = f.encode :=
    (encode_of_decode (load_eq_ok.mp loaded).2).symm
  refine ⟨fun feed f => ⟨fun loaded => ?_, fun ⟨healthy, built, stored⟩ => ?_⟩,
    fun feed feed' f loaded loaded' => (delivers loaded).trans (delivers loaded').symm⟩
  · exact ⟨(load_eq_ok.mp loaded).1, .load loaded, delivers loaded⟩
  · refine load_eq_ok.mpr ⟨healthy, ?_⟩
    rw [stored, decode_encode built.sound]

def strayBits : BloomFilter := ⟨#[1, 0x8000000000000000], 65, 3⟩

def strayArtifact : Bytes :=
  [82, 68, 66, 76, 79, 79, 77, 49, 3, 0, 0, 0, 65, 0, 0, 0, 0, 0, 0, 0, 1, 0, 0, 0, 0, 0, 0, 0, 0, 0,
    0, 0, 0, 0, 0, 128, 216, 240, 193, 148, 231, 122, 146, 173, 161, 161, 46, 113, 105, 35, 146, 162,
    51, 57, 225, 39]

theorem load_stray_bits :
    load (.steady strayArtifact (some 1) none) = .ok strayBits ∧ load (.whole strayBits.encode) = .ok strayBits ∧
      (Feed.steady strayArtifact (some 1) none).rest = (Feed.whole strayBits.encode).rest := by
  have stored : strayArtifact = strayBits.encode := by decide +kernel
  have sound : strayBits.Sound := ⟨by decide, by decide, by decide, by decide⟩
  have whole : load (.whole strayBits.encode) = .ok strayBits := load_eq_ok.mpr ⟨rfl, decode_encode sound⟩
  have bytewise : load (.steady strayArtifact (some 1) none) = .ok strayBits :=
    (load_exact.1 _ _).mpr ⟨rfl, .load whole, stored⟩
  exact ⟨bytewise, whole, load_exact.2 _ _ _ bytewise whole⟩

end BloomFilter
end RomLedger
