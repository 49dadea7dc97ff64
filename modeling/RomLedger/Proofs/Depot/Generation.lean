import RomLedger.Depot.Generation
import RomLedger.Proofs.Bytes.Utf8
import RomLedger.Proofs.Disk.Home
import RomLedger.Proofs.Text.Numeral

/- The size checkpoint of a root, seen as the number that is read at its place. Every size that fits a signed
   word is read as it was written. -/
namespace RomLedger.Generation

open Disk

theorem proper_fileName : fileName ≠ "." ∧ fileName ≠ ".." := by decide

def Holds (size : Int) : Prop := -Numeral.max63 - 1 ≤ size ∧ size ≤ Numeral.max63

instance (size : Int) : Decidable (Holds size) := inferInstanceAs (Decidable (_ ∧ _))

/-- The number in what is read, if there is one. -/
def number? (b : Option Bytes) : Option Int :=
  b.bind fun b =>
    match Utf8.decode b with
    | .ok text => (parse text).toOption
    | .error _ => none

theorem number?_render {size : Int} (holds : Holds size) : number? (some (render size)) = some size := by
  have text : Utf8.decode (render size) = .ok (toString size) := Utf8.decode_ofString _
  have number : parse (toString size) = .ok size := by
    rw [parse, Numeral.trimList_toString, Numeral.integer_toString holds.1 holds.2]
  simp only [number?, Option.bind_some, text, number]
  rfl

theorem number?_take {size : Int} (holds : Holds size) (k : Nat) :
    number? (some ((render size).take k)) = Numeral.cut? size k := by
  have ascii : ∀ c ∈ (toString size).toList, c.toNat < 128 := fun c member =>
    (Numeral.toNat_of_mem_toString member).2
  have solid : ∀ c ∈ (toString size).toList.take k, Text.isBlank c = false := fun c member =>
    Numeral.isBlank_of_mem_toString (List.mem_of_mem_take member)
  have text : Utf8.decode ((render size).take k) = .ok (String.ofList ((toString size).toList.take k)) := by
    rw [render, Utf8.take_ofString ascii, Utf8.decode_ofString]
  rw [← Numeral.integer_take holds.1 holds.2]
  simp only [number?, Option.bind_some, text, parse, String.toList_ofList, Text.trimList_of_solid solid]

theorem holds_of_number? {b : Option Bytes} {size : Int} (number : number? b = some size) : Holds size := by
  obtain ⟨bytes, -, parsed⟩ := Option.bind_eq_some_iff.mp number
  split at parsed
  · rename_i text _
    cases result : parse text with
    | error f => simp [result, Except.toOption] at parsed
    | ok n =>
      rw [result] at parsed
      cases parsed
      exact Numeral.integer_bounds result
  · cases parsed

variable {σ : Type} {d d' : Disk σ} {root : Path} {place : Place} {size : Int}

theorem read_of_exists (present : d.fileExists (file root) = true) :
    (read d root).2 = d ∧ (read d root).1.toOption = number? (d.read (file root)).toOption := by
  unfold read
  rw [if_pos present]
  refine ⟨rfl, ?_⟩
  cases d.read (file root) with
  | error f => rfl
  | ok b =>
    dsimp only
    change _ = number? (some b)
    simp only [number?, Option.bind_some]
    cases Utf8.decode b with
    | error f => rfl
    | ok text =>
      dsimp only
      cases parse text <;> rfl

theorem differs_write (leads : d.Leads root place) (plain : d.Plain (place ++ [fileName])) (size : Int) :
    d.Differs (write d root size).2 [place ++ [fileName]] ∧
      ((write d root size).1 = .ok () →
        (write d root size).2.get? (place ++ [fileName]) = some (.file (render size))) := by
  obtain ⟨differs, done⟩ := Disk.differs_write leads plain proper_fileName (render size)
  refine ⟨differs, fun succeeded => done ?_⟩
  unfold write file at succeeded
  rcases result : d.write (root.join fileName) (render size) with ⟨_ | _, d'⟩
  · rw [result] at succeeded
    cases succeeded
  · rfl

theorem read_ok (done : read d root = (.ok size, d')) :
    d' = d ∧ number? (d.read (file root)).toOption = some size ∨
      d.fileExists (file root) = false ∧ size = 0 ∧ d.write (file root) (render 0) = (.ok (), d') := by
  cases present : d.fileExists (file root) with
  | true =>
    obtain ⟨same, result⟩ := read_of_exists present
    rw [done] at same result
    exact .inl ⟨same, result.symm⟩
  | false =>
    rw [read, if_neg (by simp [present]), write] at done
    rcases written : d.write (file root) (render 0) with ⟨_ | _, d''⟩
    · rw [written] at done
      cases done
    · rw [written] at done
      cases done
      exact .inr ⟨rfl, rfl, rfl⟩

end RomLedger.Generation
