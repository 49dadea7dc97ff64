import Mathlib
import RomLedger.Text.Basic
import RomLedger.Proofs.Feed.View

/- Trimming takes the white space off both ends of a text and nothing else; what is left begins and ends with
   none, and is all that a second trimming would leave. -/
namespace RomLedger.Text

def Trimmed (s : String) : Prop :=
  (∀ c ∈ s.toList.head?, isBlank c = false) ∧ ∀ c ∈ s.toList.getLast?, isBlank c = false

/-- A text with what is left of it when the white space around it is gone. -/
def Trims (s t : String) : Prop :=
  Trimmed t ∧ ∃ front back, s.toList = front ++ t.toList ++ back ∧
    (∀ c ∈ front, isBlank c = true) ∧ ∀ c ∈ back, isBlank c = true

theorem trimList_parts (cs : List Char) :
    cs = cs.takeWhile isBlank ++ trimList cs ++ ((cs.dropWhile isBlank).reverse.takeWhile isBlank).reverse := by
  have back : trimList cs ++ ((cs.dropWhile isBlank).reverse.takeWhile isBlank).reverse = cs.dropWhile isBlank := by
    rw [trimList, ← List.reverse_append, List.takeWhile_append_dropWhile, List.reverse_reverse]
  rw [List.append_assoc, back, List.takeWhile_append_dropWhile]

theorem last_trimList (cs : List Char) : ∀ c ∈ (trimList cs).getLast?, isBlank c = false := by
  intro c last
  rw [trimList, List.getLast?_reverse] at last
  exact head_dropWhile isBlank _ c last

theorem head_trimList (cs : List Char) : ∀ c ∈ (trimList cs).head?, isBlank c = false := by
  intro c first
  -- without the white space at its back, the text begins as it did
  obtain ⟨rest, whole⟩ : trimList cs <+: cs.dropWhile isBlank := by
    rw [trimList, ← List.reverse_suffix, List.reverse_reverse]
    exact List.dropWhile_suffix isBlank
  apply head_dropWhile isBlank cs c
  rw [← whole, List.head?_append, Option.mem_def.mp first]
  rfl

theorem trimmed_trim (s : String) : Trimmed (trim s) := by
  rw [Trimmed, trim, String.toList_ofList]
  exact ⟨head_trimList s.toList, last_trimList s.toList⟩

theorem trims_trim (s : String) : Trims s (trim s) := by
  have parts := trimList_parts s.toList
  rw [← String.toList_ofList (l := trimList s.toList)] at parts
  refine ⟨trimmed_trim s, _, _, parts, ?_, ?_⟩
  · intro c member
    exact List.mem_takeWhile_imp member
  · intro c member
    exact List.mem_takeWhile_imp (List.mem_reverse.mp member)

theorem trim_of_trimmed {s : String} (trimmed : Trimmed s) : trim s = s := by
  obtain ⟨front, back⟩ := trimmed
  rw [← List.head?_reverse] at back
  rw [trim, trimList, dropWhile_of_head front, dropWhile_of_head back, List.reverse_reverse, String.ofList_toList]

end RomLedger.Text
