import Mathlib
import RomLedger.Json.Skip
import RomLedger.Proofs.Json.Number
import RomLedger.Proofs.Json.Text

/- The grammar of JSON texts: values within any blanks, lists and objects of any depth, texts in any spelling,
   halves of pairs included, and numbers of any size. -/
namespace RomLedger.Json

def AllBlank (gap : List Char) : Prop := ∀ c ∈ gap, isBlank c = true

def EndsValue (rest : List Char) : Prop :=
  ∀ c ∈ rest.head?, isBlank c = true ∨ c = ',' ∨ c = ']' ∨ c = '\x7d'

def Starts (t : List Char) : Prop := ∃ c s, t = c :: s ∧ isBlank c = false ∧ c ≠ ']' ∧ c ≠ '\x7d'

/-- What is behind a part up to the closing bracket: the other parts, each behind a comma. -/
inductive Behind : List (List Char) → List Char → Prop
  | closed {gap : List Char} (blank : AllBlank gap) : Behind [] gap
  | part {gap lead t u : List Char} {ts : List (List Char)} (blank : AllBlank gap) (led : AllBlank lead)
      (later : Behind ts u) : Behind (t :: ts) (gap ++ ',' :: (lead ++ (t ++ u)))

/-- Parts with commas between them. -/
inductive Between : List (List Char) → List Char → Prop
  | none {gap : List Char} (blank : AllBlank gap) : Between [] gap
  | parts {lead t u : List Char} {ts : List (List Char)} (led : AllBlank lead) (later : Behind ts u) :
      Between (t :: ts) (lead ++ (t ++ u))

/-- A field: its name, a colon and the text of its value. -/
inductive FieldText (sound : Bool) (name t : List Char) : List Char → Prop
  | mk {s gap lead : List Char} (spells : Spells sound name s) (blank : AllBlank gap) (led : AllBlank lead) :
      FieldText sound name t ('"' :: (s ++ '"' :: (gap ++ ':' :: (lead ++ t))))

inductive WellFormed : List Char → Prop
  | null : WellFormed "null".toList
  | true_ : WellFormed "true".toList
  | false_ : WellFormed "false".toList
  | number {t : List Char} (number : IsNumber t) : WellFormed t
  | text {cs s : List Char} (spells : Spells false cs s) : WellFormed ('"' :: (s ++ ['"']))
  | list {ts : List (List Char)} {u : List Char} (items : ∀ t ∈ ts, WellFormed t) (between : Between ts u) :
      WellFormed ('[' :: (u ++ [']']))
  | object {ps : List (List Char × List Char)} {u : List Char} (values : ∀ p ∈ ps, WellFormed p.1)
      (named : ∀ p ∈ ps, ∃ name, FieldText false name p.1 p.2) (between : Between (ps.map Prod.snd) u) :
      WellFormed ('\x7b' :: (u ++ ['\x7d']))

variable {gap lead rest t u s : List Char} {c : Char} {ts : List (List Char)} {outer : List Bracket} {b : Bracket}

theorem dropBlank_gap (blank : AllBlank gap) (solid : isBlank c = false) : dropBlank (gap ++ c :: s) = c :: s := by
  rw [dropBlank, List.dropWhile_append_of_pos blank, List.dropWhile_cons_of_neg (Bool.eq_false_iff.mp solid)]

theorem dropBlank_all (blank : AllBlank gap) : dropBlank gap = [] := List.dropWhile_eq_nil_iff.mpr blank

theorem isBlank_closing (b : Bracket) : isBlank b.closing = false := by
  cases b <;> rfl

theorem EndsValue.number (ends : EndsValue rest) : EndsNumber rest := by
  intro c front
  rcases ends c front with blank | rfl | rfl | rfl
  · simp only [isBlank, Bool.or_eq_true, beq_iff_eq] at blank
    rcases blank with ((rfl | rfl) | rfl) | rfl <;> decide
  all_goals decide

theorem endsValue_closing (b : Bracket) (rest : List Char) : EndsValue (b.closing :: rest) := by
  rintro _ ⟨⟩
  cases b
  · exact .inr (.inr (.inl rfl))
  · exact .inr (.inr (.inr rfl))

theorem endsValue_gap (blank : AllBlank gap) (ends : EndsValue rest) : EndsValue (gap ++ rest) := by
  cases gap with
  | nil => exact ends
  | cons c gap =>
    rintro _ ⟨⟩
    exact .inl (blank c List.mem_cons_self)

theorem Behind.ends (behind : Behind ts u) (b : Bracket) (rest : List Char) :
    EndsValue (u ++ b.closing :: rest) := by
  cases behind with
  | closed blank => exact endsValue_gap blank (endsValue_closing b rest)
  | part blank led later =>
    rw [List.append_assoc]
    refine endsValue_gap blank ?_
    rintro _ ⟨⟩
    exact .inr (.inl rfl)

theorem skipAfter_of_drop {s' : List Char} (drop : dropBlank s = c :: s') :
    skipAfter (b :: outer) s =
      if c = b.closing then skipAfter outer s'
      else if c = ',' then (skipLead b s').bind (skipValue (b :: outer))
      else .error (.upon b.unclosed (c :: s')) := by
  rw [skipAfter.eq_def]
  dsimp only
  split
  · rename_i none_
    cases none_.symm.trans drop
  · rename_i found
    cases found.symm.trans drop
    split
    · rfl
    · split
      · split <;> rename_i led <;> rw [led] <;> rfl
      · rfl

theorem skipOpened_of_drop {s' : List Char} (drop : dropBlank s = c :: s') :
    skipOpened b outer s =
      if c = b.closing then skipAfter outer s' else (skipLead b s).bind (skipValue (b :: outer)) := by
  rw [skipOpened]
  split
  · rename_i none_
    cases none_.symm.trans drop
  · rename_i found
    cases found.symm.trans drop
    split
    · rfl
    · split <;> rename_i led <;> rw [led] <;> rfl

theorem skipValue_of_drop {s' : List Char} (drop : dropBlank s = c :: s') :
    skipValue outer s =
      if c = '[' then skipOpened .square outer s'
      else if c = '\x7b' then skipOpened .curly outer s'
      else (skipScalar c s').bind (skipAfter outer) := by
  rw [skipValue]
  split
  · rename_i none_
    cases none_.symm.trans drop
  · rename_i found
    cases found.symm.trans drop
    split
    · rfl
    · split
      · rfl
      · split <;> rename_i scalar <;> rw [scalar] <;> rfl

/-- A part that is passed over, with the name of its field in an object. -/
structure Skipped (b : Bracket) (w : List Char) : Prop where
  starts : Starts w
  passes : ∀ outer lead rest, AllBlank lead → EndsValue rest →
    (skipLead b (lead ++ (w ++ rest))).bind (skipValue (b :: outer)) = skipAfter (b :: outer) rest

theorem Starts.drop (starts : Starts t) (led : AllBlank lead) (rest : List Char) :
    dropBlank (lead ++ (t ++ rest)) = t ++ rest := by
  obtain ⟨c, s, rfl, solid, -, -⟩ := starts
  exact dropBlank_gap led solid

theorem ne_closing (square : c ≠ ']') (curly : c ≠ '\x7d') (b : Bracket) : c ≠ b.closing := by
  cases b
  · exact square
  · exact curly

theorem skipAfter_behind (parts : ∀ t ∈ ts, Skipped b t) (behind : Behind ts u) :
    skipAfter (b :: outer) (u ++ b.closing :: rest) = skipAfter outer rest := by
  induction behind with
  | closed blank =>
    rw [skipAfter_of_drop (dropBlank_gap blank (isBlank_closing b)), if_pos rfl]
  | @part gap lead t u ts blank led later ih =>
    obtain ⟨part, others⟩ := List.forall_mem_cons.mp parts
    have comma : ',' ≠ b.closing := by cases b <;> decide
    simp only [List.append_assoc, List.cons_append]
    rw [skipAfter_of_drop (dropBlank_gap blank (by decide)), if_neg comma, if_pos rfl,
      part.passes outer lead _ led (later.ends b rest)]
    exact ih others

theorem skipOpened_between (parts : ∀ t ∈ ts, Skipped b t) (between : Between ts u) :
    skipOpened b outer (u ++ b.closing :: rest) = skipAfter outer rest := by
  cases between with
  | none blank => rw [skipOpened_of_drop (dropBlank_gap blank (isBlank_closing b)), if_pos rfl]
  | @parts lead t u ts led later =>
    obtain ⟨part, others⟩ := List.forall_mem_cons.mp parts
    simp only [List.append_assoc]
    have drop := part.starts.drop led (u ++ b.closing :: rest)
    obtain ⟨c, s, front, -, square, curly⟩ := part.starts
    rw [skipOpened_of_drop (drop.trans (congrArg (· ++ _) front)), if_neg (ne_closing square curly b),
      part.passes outer lead _ led (later.ends b rest)]
    exact skipAfter_behind others later

theorem skipName_field {name w : List Char} (field : FieldText false name t w) (rest : List Char) :
    ∃ lead, AllBlank lead ∧ skipName (w ++ rest) = .ok (lead ++ (t ++ rest)) := by
  obtain ⟨spells, blank, led⟩ := field
  rename_i s gap lead
  refine ⟨lead, led, ?_⟩
  simp only [List.append_assoc, List.cons_append]
  have drop := dropBlank_gap (s := lead ++ (t ++ rest)) blank (by decide : isBlank ':' = false)
  rw [skipName, if_pos rfl, readText_of_spells spells]
  dsimp only
  rw [drop]
  rfl

theorem starts_field {sound : Bool} {name w : List Char} (field : FieldText sound name t w) : Starts w := by
  obtain ⟨spells, blank, led⟩ := field
  exact ⟨_, _, rfl, by decide, by decide, by decide⟩

structure Passed (t : List Char) : Prop where
  starts : Starts t
  passes : ∀ outer lead rest, AllBlank lead → EndsValue rest →
    skipValue outer (lead ++ (t ++ rest)) = skipAfter outer rest

theorem Passed.item (passed : Passed t) : Skipped .square t :=
  ⟨passed.starts, fun outer => passed.passes (.square :: outer)⟩

theorem Passed.field {name w : List Char} (passed : Passed t) (field : FieldText false name t w) :
    Skipped .curly w := by
  refine ⟨starts_field field, fun outer lead rest led ends => ?_⟩
  obtain ⟨lead', led', name_⟩ := skipName_field field rest
  have drop : dropBlank (lead ++ (w ++ rest)) = w ++ rest := by
    obtain ⟨spells, blank, -⟩ := field
    exact dropBlank_gap led (by decide)
  rw [skipLead, drop, name_]
  exact passed.passes _ lead' rest led' ends

theorem passed_scalar (solid : isBlank c = false) (value : c ≠ ']' ∧ c ≠ '\x7d' ∧ c ≠ '[' ∧ c ≠ '\x7b')
    (scalar : ∀ rest, EndsValue rest → skipScalar c (s ++ rest) = .ok rest) : Passed (c :: s) := by
  obtain ⟨square, curly, list, object⟩ := value
  refine ⟨⟨c, s, rfl, solid, square, curly⟩, fun outer lead rest led ends => ?_⟩
  rw [List.cons_append, skipValue_of_drop (dropBlank_gap led solid), if_neg list, if_neg object, scalar rest ends]
  rfl

theorem passed_list (items : ∀ t ∈ ts, Passed t) (between : Between ts u) : Passed ('[' :: (u ++ [']'])) := by
  refine ⟨⟨_, _, rfl, by decide, by decide, by decide⟩, fun outer lead rest led _ => ?_⟩
  simp only [List.cons_append, List.append_assoc, List.nil_append]
  rw [skipValue_of_drop (dropBlank_gap led (by decide)), if_pos rfl]
  exact skipOpened_between (b := .square) (fun t member => (items t member).item) between

theorem passed_object {ps : List (List Char × List Char)} (values : ∀ p ∈ ps, Passed p.1)
    (named : ∀ p ∈ ps, ∃ name, FieldText false name p.1 p.2) (between : Between (ps.map Prod.snd) u) :
    Passed ('\x7b' :: (u ++ ['\x7d'])) := by
  refine ⟨⟨_, _, rfl, by decide, by decide, by decide⟩, fun outer lead rest led _ => ?_⟩
  simp only [List.cons_append, List.append_assoc, List.nil_append]
  rw [skipValue_of_drop (dropBlank_gap led (by decide)), if_neg (by decide), if_pos rfl]
  refine skipOpened_between (b := .curly) (fun w member => ?_) between
  obtain ⟨p, inside, rfl⟩ := List.mem_map.mp member
  obtain ⟨name, field⟩ := named p inside
  exact (values p inside).field field

theorem readWord_append (ws rest : List Char) : readWord ws (ws ++ rest) = .ok rest := by
  induction ws with
  | nil => rfl
  | cons w ws ih => rw [List.cons_append, readWord, if_pos rfl, ih]

theorem passed_text {cs : List Char} (spells : Spells false cs s) : Passed ('"' :: (s ++ ['"'])) := by
  refine passed_scalar (by decide) (by decide) fun rest _ => ?_
  rw [List.append_assoc, skipScalar, if_pos rfl, List.singleton_append, readText_of_spells spells]
  rfl

theorem passed_number (number : IsNumber t) : Passed t := by
  obtain ⟨c, s, rfl, front⟩ := head_isNumber number
  have apart (d : Char) (other : d ≠ '-') (undigit : isDigit d = false) : c ≠ d := by
    rintro rfl
    rcases front with same | digit
    · exact other same
    · rw [undigit] at digit
      cases digit
  have solid : isBlank c = false := by
    simp only [isBlank, Bool.or_eq_false_iff, beq_eq_false_iff_ne]
    refine ⟨⟨⟨?_, ?_⟩, ?_⟩, ?_⟩ <;> exact apart _ (by decide) rfl
  refine passed_scalar solid ⟨apart _ (by decide) rfl, apart _ (by decide) rfl, apart _ (by decide) rfl,
    apart _ (by decide) rfl⟩ fun rest ends => ?_
  rw [skipScalar, if_neg (apart _ (by decide) rfl), if_neg (apart _ (by decide) rfl),
    if_neg (apart _ (by decide) rfl), if_neg (apart _ (by decide) rfl), if_pos front]
  exact skipNumber_of_isNumber number ends.number

theorem WellFormed.passed (formed : WellFormed t) : Passed t := by
  induction formed with
  | null => exact passed_scalar (by decide) (by decide) fun rest _ => readWord_append "ull".toList rest
  | true_ => exact passed_scalar (by decide) (by decide) fun rest _ => readWord_append "rue".toList rest
  | false_ => exact passed_scalar (by decide) (by decide) fun rest _ => readWord_append "alse".toList rest
  | number number => exact passed_number number
  | text spells => exact passed_text spells
  | list items between ih => exact passed_list ih between
  | object values named between ih => exact passed_object ih named between

end RomLedger.Json
