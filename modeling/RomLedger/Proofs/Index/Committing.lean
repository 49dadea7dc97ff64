import RomLedger.Index.Batch
import RomLedger.Proofs.Index.Reading

/- What a batch of writes does to the answers of the index. A written digest is known and not orphaned from
   then on; it keeps the catalog that it had, or gets the one that was written for it first. -/
namespace RomLedger

namespace Write

def digest? : Write → Option Bytes
  | .catalog _ digest => some digest
  | .content _ => none

def catalogFor? (x : Bytes) : Write → Option Catalog
  | .catalog c digest => if digest = x then some c else none
  | .content _ => none

/-- Whether an index can take a write: a known catalog is not written again. -/
def Fits (i : Index) : Write → Prop
  | .catalog c digest => i.knows digest = true ∨ c.Storable
  | .content r => r.sha1 = none ∨ r.size.toNat ≤ Numeral.max63

/-- Writes of one digest have one catalog. -/
def Agree (ws : List Write) : Prop :=
  ∀ {c₁ c₂ digest}, .catalog c₁ digest ∈ ws → .catalog c₂ digest ∈ ws → c₁ = c₂

theorem agree_tail {w : Write} {ws : List Write} (agree : Agree (w :: ws)) : Agree ws :=
  fun first second => agree (List.mem_cons_of_mem w first) (List.mem_cons_of_mem w second)

end Write

namespace Index

theorem insertContent_same_answers {i j : Index} {r : Rom} (inserted : i.insertContent r = .ok j) :
    j.catalogs = i.catalogs ∧ j.games = i.games ∧ j.roms = i.roms := by
  unfold insertContent at inserted
  split at inserted
  · cases inserted
    simp
  · split at inserted
    · cases inserted
    · split at inserted <;> cases inserted <;> simp

theorem same_answers {i j : Index} (same : j.catalogs = i.catalogs ∧ j.games = i.games ∧ j.roms = i.roms)
    (x : Bytes) : j.isOrphaned x = i.isOrphaned x ∧ j.get? x = i.get? x := by
  have row : j.row? x = i.row? x := by simp [row?, same.1]
  have romsIn (id : Nat) (kind : RomKind) : j.romsIn id kind = i.romsIn id kind := by
    simp [Index.romsIn, same.2.2]
  have game : j.game = i.game := by
    funext g
    simp [Index.game, romsIn]
  have catalog : j.catalog = i.catalog := by
    funext c
    simp [Index.catalog, gamesIn, same.2.1, game]
  simp [isOrphaned, get?, row, catalog]

end Index

namespace Write

open Index

theorem apply_consistent {i j : Index} (sound : i.Consistent) {w : Write} (applied : w.apply i = .ok j) :
    j.Consistent := by
  cases w with
  | catalog c digest => exact consistent_insertCatalog sound applied
  | content r => exact consistent_insertContent sound applied

theorem isOrphaned_apply {i j : Index} {w : Write} (applied : w.apply i = .ok j) (x : Bytes) :
    j.isOrphaned x = if w.digest? = some x then some false else i.isOrphaned x := by
  cases w with
  | catalog c digest =>
    simp only [digest?, Option.some.injEq]
    rcases insertCatalog_ok_iff.mp applied with ⟨known, rfl⟩ | ⟨unknown, _, rfl⟩
    · exact isOrphaned_restore known x
    · exact isOrphaned_withCatalog unknown c x
  | content r => simp [digest?, (same_answers (insertContent_same_answers applied) x).1]

theorem get?_apply {i j : Index} (sound : i.Consistent) {w : Write} (applied : w.apply i = .ok j)
    (x : Bytes) : j.get? x = (i.get? x).or (w.catalogFor? x) := by
  cases w with
  | catalog c digest =>
    simp only [catalogFor?]
    rcases insertCatalog_ok_iff.mp applied with ⟨known, rfl⟩ | ⟨unknown, _, rfl⟩
    · rw [get?_restore]
      split
      · rename_i same
        rw [← get?_isSome, same] at known
        rw [Option.or_of_isSome known]
      · simp
    · rw [get?_withCatalog sound unknown]
      split
      · rename_i same
        rw [← get?_isSome, same] at unknown
        simp [Option.isNone_iff_eq_none.mp (Option.isSome_eq_false_iff.mp unknown)]
      · simp
  | content r => simp [catalogFor?, (same_answers (insertContent_same_answers applied) x).2]

theorem knows_apply {i j : Index} {w : Write} (applied : w.apply i = .ok j) (x : Bytes) :
    j.knows x = true ↔ i.knows x = true ∨ w.digest? = some x := by
  rw [← isOrphaned_isSome, isOrphaned_apply applied, ← isOrphaned_isSome]
  split <;> simp_all

theorem apply_ok_iff {i : Index} {w : Write} : (∃ j, w.apply i = .ok j) ↔ w.Fits i := by
  cases w with
  | catalog c digest =>
    simp only [apply, insertCatalog_ok_iff, Fits]
    cases i.knows digest <;> simp
  | content r =>
    simp only [apply, insertContent, Fits, ← storable_ok_iff]
    cases r.sha1 with
    | none => simp
    | some sha1 =>
      cases storable r.size with
      | error f => simp
      | ok u => simp only [reduceCtorEq, false_or]; split <;> simp

theorem Fits.mono {i j : Index} {w : Write} (fits : w.Fits i)
    (keeps : ∀ x, i.knows x = true → j.knows x = true) : w.Fits j := by
  cases w with
  | catalog c digest => exact fits.imp_left (keeps digest)
  | content r => exact fits

end Write

namespace Batch

open Index Write

theorem applyAll_append {i : Index} {ws vs : List Write} :
    applyAll i (ws ++ vs) = (applyAll i ws).bind fun j => applyAll j vs := by
  induction ws generalizing i with
  | nil => rfl
  | cons w rest ih =>
    simp only [List.cons_append, applyAll]
    cases w.apply i with
    | ok j => exact ih
    | error f => rfl

theorem applyAll_cons_ok {i k : Index} {w : Write} {ws : List Write}
    (applied : applyAll i (w :: ws) = .ok k) : ∃ j, w.apply i = .ok j ∧ applyAll j ws = .ok k := by
  simp only [applyAll] at applied
  split at applied
  · rename_i j first
    exact ⟨j, first, applied⟩
  · cases applied

theorem applyAll_consistent {i j : Index} (sound : i.Consistent) {ws : List Write}
    (applied : applyAll i ws = .ok j) : j.Consistent := by
  induction ws generalizing i with
  | nil => cases applied; exact sound
  | cons w rest ih =>
    obtain ⟨k, first, later⟩ := applyAll_cons_ok applied
    exact ih (apply_consistent sound first) later

theorem isOrphaned_applyAll {i j : Index} {ws : List Write} (applied : applyAll i ws = .ok j)
    (x : Bytes) :
    j.isOrphaned x = if x ∈ ws.filterMap digest? then some false else i.isOrphaned x := by
  induction ws generalizing i with
  | nil => cases applied; simp
  | cons w rest ih =>
    obtain ⟨k, first, later⟩ := applyAll_cons_ok applied
    rw [ih later, isOrphaned_apply first]
    have member : x ∈ (w :: rest).filterMap digest? ↔
        w.digest? = some x ∨ x ∈ rest.filterMap digest? := by simp
    by_cases own : w.digest? = some x <;> by_cases after : x ∈ rest.filterMap digest? <;>
      simp only [member, own, after, or_true, or_false, ↓reduceIte]

theorem get?_applyAll {i j : Index} (sound : i.Consistent) {ws : List Write}
    (applied : applyAll i ws = .ok j) (x : Bytes) :
    j.get? x = (i.get? x).or (ws.findSome? (catalogFor? x)) := by
  induction ws generalizing i with
  | nil => cases applied; simp
  | cons w rest ih =>
    obtain ⟨k, first, later⟩ := applyAll_cons_ok applied
    rw [ih (apply_consistent sound first) later, get?_apply sound first, Option.or_assoc]
    congr 1
    simp only [List.findSome?_cons]
    cases w.catalogFor? x <;> simp

theorem knows_applyAll {i j : Index} {ws : List Write} (applied : applyAll i ws = .ok j) (x : Bytes) :
    j.knows x = true ↔ i.knows x = true ∨ x ∈ ws.filterMap digest? := by
  rw [← isOrphaned_isSome, isOrphaned_applyAll applied, ← isOrphaned_isSome]
  split <;> simp_all

theorem applyAll_ok_of_fits {i : Index} {ws : List Write} (fits : ∀ w ∈ ws, w.Fits i) :
    ∃ j, applyAll i ws = .ok j := by
  induction ws generalizing i with
  | nil => exact ⟨i, rfl⟩
  | cons w rest ih =>
    obtain ⟨own, others⟩ := List.forall_mem_cons.mp fits
    obtain ⟨j, first⟩ := apply_ok_iff.mpr own
    simp only [applyAll, first]
    exact ih fun v member => (others v member).mono fun x known => (knows_apply first x).mpr (.inl known)

theorem fits_of_applyAll {i j : Index} {ws : List Write} (agree : Agree ws)
    (applied : applyAll i ws = .ok j) : ∀ w ∈ ws, w.Fits i := by
  induction ws generalizing i with
  | nil => simp
  | cons w rest ih =>
    obtain ⟨k, first, later⟩ := applyAll_cons_ok applied
    have own : w.Fits i := apply_ok_iff.mp ⟨k, first⟩
    refine List.forall_mem_cons.mpr ⟨own, fun v member => ?_⟩
    have fits := ih (agree_tail agree) later v member
    cases v with
    | content r => exact fits
    | catalog c digest =>
      rcases fits with known | small
      · rcases (knows_apply first digest).mp known with before | new
        · exact .inl before
        · cases w with
          | content r => simp [digest?] at new
          | catalog c' digest' =>
            cases new
            exact agree (List.mem_cons_of_mem _ member) List.mem_cons_self ▸ own
      · exact .inr small

end Batch
end RomLedger
