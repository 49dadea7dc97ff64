import Mathlib.Data.List.Basic
import RomLedger.Proofs.Catalog.Digest

/-!
A meter accounts for the bytes that pass it. After any reads, of any sizes, into which the feed cuts its bytes
as it likes, the line is that behind the bytes delivered so far and the digest is that of exactly these bytes.
What is read as a catalog has passed as a whole, so its digest is that of the whole file: with its mark, and
with whatever stands behind the last token or the root.
-/
namespace RomLedger

namespace Meter

def reads : List Nat → Meter → List (Option Bytes) × Meter
  | [], m => ([], m)
  | want :: wants, m =>
    let later := reads wants (m.read want).2
    ((m.read want).1 :: later.1, later.2)

def delivered (outcomes : List (Option Bytes)) : Bytes := outcomes.flatMap fun o => o.getD []

structure Passes (m : Meter) (b : Bytes) (m' : Meter) : Prop where
  line : m'.line = m.line + Bytes.newlines b
  hasher : m'.hasher = m.hasher.update b
  rest : b ++ m'.feed.rest = m.feed.rest

theorem Passes.trans {m m' m'' : Meter} {a b : Bytes} (first : m.Passes a m') (second : m'.Passes b m'') :
    m.Passes (a ++ b) m'' where
  line := by
    rw [second.line, first.line, Bytes.newlines, Bytes.newlines, Bytes.newlines, List.count_append]
    omega
  hasher := by rw [second.hasher, first.hasher, Sha1.Hasher.update_append]
  rest := by rw [List.append_assoc, second.rest, first.rest]

theorem passes_read (want : Nat) (m : Meter) : m.Passes ((m.read want).1.getD []) (m.read want).2 := by
  obtain ⟨feed, line, hasher⟩ := m
  by_cases empty : feed.rest.isEmpty
  · by_cases bad : feed.failing
    · have none : read want ⟨feed, line, hasher⟩ = (none, ⟨feed, line, hasher⟩) := by
        simp only [read, Feed.read, empty, bad, ↓reduceIte]
      rw [none]
      exact ⟨rfl, rfl, rfl⟩
    · have ended : read want ⟨feed, line, hasher⟩ = (some [], ⟨feed, line, hasher⟩) := by
        simp only [read, Feed.read, empty, bad, Bool.false_eq_true, ↓reduceIte]
        rfl
      rw [ended]
      exact ⟨rfl, rfl, rfl⟩
  · simp only [read, Feed.read, empty, Bool.false_eq_true, ↓reduceIte]
    exact ⟨rfl, rfl, List.take_append_drop _ feed.rest⟩

theorem passes_reads (wants : List Nat) (m : Meter) : m.Passes (delivered (m.reads wants).1) (m.reads wants).2 := by
  induction wants generalizing m with
  | nil => exact ⟨rfl, rfl, rfl⟩
  | cons want wants ih =>
    rw [reads, delivered, List.flatMap_cons]
    exact (m.passes_read want).trans (ih (m.read want).2)

end Meter

/-- The digest that comes with a catalog is that of all bytes of its file, in both formats and in whatever portions
they come. Read by read, a meter has the line and the digest of what was delivered. -/
theorem digest_of_all_bytes :
    (∀ f c x, Clr.parse f = .ok (c, x) → x = Sha1.digest f.rest) ∧
      (∀ f c x, Markup.parse f = .ok (c, x) → x = Sha1.digest f.rest) ∧
      (∀ (σ : Type) (d : Disk σ) p c x, Source.parseFile d p = .ok (c, x) →
        ∃ b, d.read p = .ok b ∧ x = Sha1.digest b) ∧
      ∀ f wants,
        let after := (Meter.ofFeed f).reads wants
        after.2.line = 1 + Bytes.newlines (Meter.delivered after.1) ∧
          after.2.digest = Sha1.digest (Meter.delivered after.1) ∧
          Meter.delivered after.1 ++ after.2.feed.rest = f.rest := by
  refine ⟨fun f c x => Clr.digest_of_parse, fun f c x => Markup.digest_of_parse, ?_, ?_⟩
  · intro σ d p c x parsed
    obtain ⟨b, held, digest, -⟩ := Source.parseFile_ok parsed
    exact ⟨b, held, digest⟩
  · intro f wants after
    have passes := Meter.passes_reads wants (.ofFeed f)
    refine ⟨passes.line, ?_, passes.rest⟩
    rw [Meter.digest, passes.hasher]
    exact Sha1.Hasher.finish_update _

def strayText : Bytes := Bytes.mark ++ Bytes.ofString "game(name g))end"

def strayTextDigest : Bytes :=
  [0xD3, 0xBB, 0x54, 0x3F, 0xC7, 0x01, 0x1A, 0x00, 0xC7, 0x25, 0x18, 0x1D, 0x80, 0xBA, 0x61, 0x0B, 0x12, 0xC0,
    0xB8, 0x8C]

def strayMarkup : Bytes := Bytes.ofString "<a/>\nx<"

def strayMarkupDigest : Bytes :=
  [0x05, 0x21, 0xE6, 0xC3, 0xD5, 0xF6, 0xA3, 0x0F, 0xB5, 0xA2, 0x3B, 0xDF, 0x82, 0x4D, 0x7C, 0x6E, 0x09, 0x3B,
    0x10, 0xD9]

theorem digest_of_stray_bytes :
    Clr.parse (.steady strayText (some 1) none) =
        .ok (⟨"", "", [⟨"g", "", [], [], [], []⟩], []⟩, strayTextDigest) ∧
      strayTextDigest = Sha1.digest strayText ∧
      Markup.parse (.steady strayMarkup (some 3) none) = .ok (.blank, strayMarkupDigest) ∧
      strayMarkupDigest = Sha1.digest strayMarkup := by
  have text : Clr.parse (.steady strayText (some 1) none) =
      .ok (⟨"", "", [⟨"g", "", [], [], [], []⟩], []⟩, strayTextDigest) := by
    decide +kernel
  have markup : Markup.parse (.steady strayMarkup (some 3) none) = .ok (.blank, strayMarkupDigest) := by
    decide +kernel
  have digest := digest_of_all_bytes.1 _ _ _ text
  have digest' := digest_of_all_bytes.2.1 _ _ _ markup
  exact ⟨text, digest, markup, digest'⟩

end RomLedger
