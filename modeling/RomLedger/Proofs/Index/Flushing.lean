import RomLedger.Proofs.Index.Sessions

/-!
A flush is all or nothing. Either every pending write takes effect, in the order in which they were made, and
the batch is empty again; or one of them cannot be stored, and then index and batch are what they were, so
that the batch fails again.
-/
namespace RomLedger

def Catalog.Oversized (c : Catalog) : Prop :=
  ∃ g ∈ c.allGames, ∃ r ∈ g.allRoms, Numeral.max63 < r.size.toNat

theorem Catalog.oversized_iff (c : Catalog) : c.Oversized ↔ ¬c.Storable := by
  simp only [Oversized, Storable, Game.Storable, not_forall, Nat.not_le, exists_prop]

namespace Write

def Refused (i : Index) (before : List Write) : Write → Prop
  | .catalog c digest =>
    i.knows digest = false ∧ digest ∉ before.filterMap digest? ∧ c.Oversized
  | .content r => r.sha1 ≠ none ∧ Numeral.max63 < r.size.toNat

theorem refused_iff {i j : Index} {before : List Write} (applied : Batch.applyAll i before = .ok j)
    (w : Write) : w.Refused i before ↔ ¬w.Fits j := by
  cases w with
  | catalog c digest =>
    rw [Fits, Batch.knows_applyAll applied, not_or, not_or, ← c.oversized_iff, Bool.not_eq_true, and_assoc]
    rfl
  | content r => rw [Fits, not_or, Nat.not_le]; rfl

end Write

namespace Batch

open Write

def Overfull (i : Index) (ws : List Write) : Prop :=
  ∃ before w after, ws = before ++ w :: after ∧ w.Refused i before

theorem applyAll_eq_foldlM (i : Index) (ws : List Write) :
    applyAll i ws = ws.foldlM (fun i w => w.apply i) i := by
  induction ws generalizing i with
  | nil => rfl
  | cons w rest ih =>
    rw [applyAll, List.foldlM_cons]
    cases w.apply i with
    | ok j => exact ih j
    | error f => rfl

theorem first_of_error {i : Index} {ws : List Write} {f : Index.SizeFault}
    (failed : applyAll i ws = .error f) :
    ∃ before w after j, ws = before ++ w :: after ∧ applyAll i before = .ok j ∧ w.apply j = .error f := by
  induction ws generalizing i with
  | nil => cases failed
  | cons w rest ih =>
    rw [applyAll] at failed
    cases first : w.apply i with
    | error g =>
      rw [first] at failed
      cases failed
      exact ⟨[], w, rest, i, rfl, rfl, first⟩
    | ok k =>
      rw [first] at failed
      obtain ⟨before, v, after, j, rfl, through, refused⟩ := ih failed
      refine ⟨w :: before, v, after, j, rfl, ?_, refused⟩
      rw [applyAll, first]
      exact through

theorem applyAll_error_iff {i : Index} {ws : List Write} :
    (∃ f, applyAll i ws = .error f) ↔ Overfull i ws := by
  constructor
  · rintro ⟨f, failed⟩
    obtain ⟨before, w, after, j, split, through, refused⟩ := first_of_error failed
    refine ⟨before, w, after, split, (refused_iff through w).mpr fun fits => ?_⟩
    obtain ⟨k, applied⟩ := apply_ok_iff.mpr fits
    rw [refused] at applied
    cases applied
  · rintro ⟨before, w, after, rfl, refused⟩
    cases all : applyAll i (before ++ w :: after) with
    | error f => exact ⟨f, rfl⟩
    | ok k =>
      -- a batch that went through went through up to the refused write, and took it
      rw [applyAll_append] at all
      cases front : applyAll i before with
      | error f =>
        rw [front] at all
        cases all
      | ok j =>
        rw [front] at all
        obtain ⟨l, applied, -⟩ := applyAll_cons_ok all
        exact absurd (apply_ok_iff.mp ⟨l, applied⟩) ((refused_iff front w).mp refused)

end Batch

namespace Index.Session

variable {β : Type} [DecidableEq β] {s : Session β} {b : β} {batch : Batch}

/-- Flushing applies all pending writes in order and empties the batch, or fails and changes nothing; it
fails exactly if some write is refused when its turn comes. -/
theorem flush_all_or_nothing (opened : s.batches b = some batch) :
    (∀ j, batch.pending.foldlM (fun i w => w.apply i) s.index = .ok j →
      batch.flush s.index = .ok (j, ⟨[], 0⟩) ∧
        s.flush b = ⟨j, Function.update s.batches b (some ⟨[], 0⟩)⟩) ∧
    (∀ f, batch.pending.foldlM (fun i w => w.apply i) s.index = .error f →
      batch.flush s.index = .error f ∧ s.flush b = s) ∧
    ((∃ f, batch.flush s.index = .error f) ↔ Batch.Overfull s.index batch.pending) := by
  simp only [← Batch.applyAll_eq_foldlM, ← Batch.applyAll_error_iff]
  refine ⟨fun j applied => ?_, fun f failed => ?_, ?_⟩
  · have flushed : batch.flush s.index = .ok (j, .empty) := by
      rw [Batch.flush, applied]
    refine ⟨flushed, ?_⟩
    simp only [Session.flush, opened, flushed]
    rfl
  · have flushed : batch.flush s.index = .error f := by
      rw [Batch.flush, failed]
    refine ⟨flushed, ?_⟩
    simp only [Session.flush, opened, flushed]
  · unfold Batch.flush
    cases Batch.applyAll s.index batch.pending <;> simp

def hugeCatalog : Catalog :=
  ⟨"", "", [⟨"", "", [], [], [⟨"", 9223372036854775808, none, none, none⟩], []⟩], []⟩

def mixedBatch : Batch :=
  ((Batch.empty.addCatalog .blank [1]).addCatalog hugeCatalog [1]).addCatalog hugeCatalog [2]

def mixedSession : Session Unit := ⟨.empty, fun _ => some mixedBatch⟩

theorem flush_mixed :
    (∃ f, mixedBatch.flush .empty = .error f) ∧ mixedSession.flush () = mixedSession := by
  have whole := @flush_all_or_nothing Unit _ mixedSession () mixedBatch rfl
  refine ⟨whole.2.2.mpr ?_, ?_⟩
  · refine ⟨[.catalog .blank [1], .catalog hugeCatalog [1]], .catalog hugeCatalog [2], [], rfl, rfl, ?_, ?_⟩
    · decide
    · rw [Catalog.oversized_iff]
      decide
  · exact (whole.2.1 ⟨9223372036854775808⟩ (by decide)).2

end Index.Session
end RomLedger
