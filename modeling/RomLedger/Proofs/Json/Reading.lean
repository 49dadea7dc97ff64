import Mathlib
import RomLedger.Json.Record
import RomLedger.Proofs.Json.Grammar

/- Reading what is written. A value without decimals may be written with any blanks and in any spelling; the
   readers of texts, integers, lists and records find it up to its last character, wherever it stands. -/
namespace RomLedger.Json

/-- The text of an object with some members, each a name with the text of a value. -/
inductive ObjectText (ms : List (String × List Char)) : List Char → Prop
  | mk {ws : List (List Char)} {u : List Char}
      (fields : List.Forall₂ (fun m w => FieldText true m.1.toList m.2 w) ms ws) (between : Between ws u) :
      ObjectText ms ('\x7b' :: (u ++ ['\x7d']))

/-- A whole text: an object with some members, and blanks around it. -/
inductive Document (ms : List (String × List Char)) : String → Prop
  | mk {lead t tail : List Char} (led : AllBlank lead) (object : ObjectText ms t) (blank : AllBlank tail) :
      Document ms (String.ofList (lead ++ (t ++ tail)))

/-- The texts of a value without decimals. -/
inductive Shows : Value → List Char → Prop
  | null : Shows .null "null".toList
  | true_ : Shows (.bool true) "true".toList
  | false_ : Shows (.bool false) "false".toList
  | integer (n : Int) : Shows (.integer n) (integerText n)
  | text {s : String} {t : List Char} (spells : Spells true s.toList t) : Shows (.text s) ('"' :: (t ++ ['"']))
  | list {ps : List (Value × List Char)} {u : List Char} (items : ∀ p ∈ ps, Shows p.1 p.2)
      (between : Between (ps.map Prod.snd) u) : Shows (.list (ps.map Prod.fst)) ('[' :: (u ++ [']']))
  | object {ps : List ((String × Value) × List Char)} {t : List Char} (values : ∀ p ∈ ps, Shows p.1.2 p.2)
      (object : ObjectText (ps.map fun p => (p.1.1, p.2)) t) : Shows (.object (ps.map Prod.fst)) t

theorem Shows.of_list {vs : List Value} {t : List Char} (shown : Shows (.list vs) t) :
    ∃ (ps : List (Value × List Char)) (u : List Char), ps.map Prod.fst = vs ∧ (∀ p ∈ ps, Shows p.1 p.2) ∧
      Between (ps.map Prod.snd) u ∧ t = '[' :: (u ++ [']']) := by
  generalize same : Value.list vs = v at shown
  cases shown with
  | list items between =>
    cases same
    exact ⟨_, _, rfl, items, between, rfl⟩
  | null | true_ | false_ | integer | text | object => cases same

theorem Shows.of_object {fs : List (String × Value)} {t : List Char} (shown : Shows (.object fs) t) :
    ∃ ps : List ((String × Value) × List Char), ps.map Prod.fst = fs ∧ (∀ p ∈ ps, Shows p.1.2 p.2) ∧
      ObjectText (ps.map fun p => (p.1.1, p.2)) t := by
  generalize same : Value.object fs = v at shown
  cases shown with
  | object values object =>
    cases same
    exact ⟨_, rfl, values, object⟩
  | null | true_ | false_ | integer | text | list => cases same

inductive Value.Exact : Value → Prop
  | null : Exact .null
  | bool (b : Bool) : Exact (.bool b)
  | integer (n : Int) : Exact (.integer n)
  | text (s : String) : Exact (.text s)
  | list {vs : List Value} (items : ∀ v ∈ vs, Exact v) : Exact (.list vs)
  | object {fs : List (String × Value)} (values : ∀ f ∈ fs, Exact f.2) : Exact (.object fs)

structure Layout.Plain (l : Layout) : Prop where
  gap : ∀ depth, AllBlank (l.gap depth)
  colon : ∃ before after, l.colon = before ++ ':' :: after ∧ AllBlank before ∧ AllBlank after

theorem plain_lines : Layout.lines.Plain where
  gap depth := by
    rintro c member
    rcases List.mem_cons.mp member with rfl | inside
    · rfl
    · rw [List.eq_of_mem_replicate inside]
      rfl
  colon := ⟨[], [' '], rfl, List.forall_mem_nil _, by simp [AllBlank, isBlank]⟩

section

variable {l : Layout} {v : Value}

theorem behind_writeItems (plain : l.Plain) (depth : Nat) (vs : List Value) :
    Behind (vs.map (Value.write l (depth + 1))) (writeItems l (depth + 1) vs ++ l.gap depth) := by
  induction vs with
  | nil => exact .closed (plain.gap depth)
  | cons v vs ih =>
    have part := Behind.part (t := v.write l (depth + 1)) (List.forall_mem_nil _) (plain.gap (depth + 1)) ih
    simpa [writeItems] using part

theorem write_list (plain : l.Plain) (depth : Nat) (vs : List Value) :
    ∃ u, Between (vs.map (Value.write l (depth + 1))) u ∧ (Value.list vs).write l depth = '[' :: (u ++ [']']) := by
  cases vs with
  | nil => exact ⟨[], .none (List.forall_mem_nil _), by rw [Value.write]; rfl⟩
  | cons v vs =>
    have between := Between.parts (t := v.write l (depth + 1)) (plain.gap (depth + 1))
      (behind_writeItems plain depth vs)
    exact ⟨_, between, by simp [Value.write]⟩

def fieldText (l : Layout) (depth : Nat) (f : String × Value) : List Char :=
  quoted f.1 ++ l.colon ++ f.2.write l depth

theorem behind_writeFields (plain : l.Plain) (depth : Nat) (fs : List (String × Value)) :
    Behind (fs.map (fieldText l (depth + 1))) (writeFields l (depth + 1) fs ++ l.gap depth) := by
  induction fs with
  | nil => exact .closed (plain.gap depth)
  | cons f fs ih =>
    have part := Behind.part (t := fieldText l (depth + 1) f) (List.forall_mem_nil _) (plain.gap (depth + 1)) ih
    simpa [writeFields, fieldText] using part

theorem fieldText_spells (plain : l.Plain) (depth : Nat) (f : String × Value) :
    FieldText true f.1.toList (f.2.write l depth) (fieldText l depth f) := by
  obtain ⟨before, after, colon, blank, led⟩ := plain.colon
  have field := FieldText.mk (t := f.2.write l depth) (spells_escaped true f.1.toList) blank led
  simpa [fieldText, quoted, colon] using field

/-- The members of an object as they are written. -/
def written (l : Layout) (depth : Nat) (fs : List (String × Value)) : List (String × List Char) :=
  fs.map fun f => (f.1, f.2.write l (depth + 1))

theorem objectText_write (plain : l.Plain) (depth : Nat) (fs : List (String × Value)) :
    ObjectText (written l depth fs) ((Value.object fs).write l depth) := by
  have fields : List.Forall₂ (fun m w => FieldText true m.1.toList m.2 w) (written l depth fs)
      (fs.map (fieldText l (depth + 1))) := by
    rw [written, List.forall₂_map_left_iff, List.forall₂_map_right_iff, List.forall₂_same]
    exact fun f _ => fieldText_spells plain (depth + 1) f
  cases fs with
  | nil =>
    rw [Value.write]
    exact .mk fields (.none (List.forall_mem_nil _))
  | cons f fs =>
    have between := Between.parts (t := fieldText l (depth + 1) f) (plain.gap (depth + 1))
      (behind_writeFields plain depth fs)
    have object := ObjectText.mk fields between
    simpa [Value.write, fieldText] using object

theorem shows_write (plain : l.Plain) (exact_ : v.Exact) (depth : Nat) : Shows v (v.write l depth) := by
  induction exact_ generalizing depth with
  | null =>
    rw [Value.write]
    exact .null
  | bool b =>
    cases b
    · rw [Value.write]
      exact .false_
    · rw [Value.write]
      exact .true_
  | integer n =>
    rw [Value.write]
    exact .integer n
  | text s =>
    rw [Value.write]
    exact .text (spells_escaped true s.toList)
  | @list vs items ih =>
    obtain ⟨u, between, same⟩ := write_list plain depth vs
    let ps : List (Value × List Char) := vs.map fun v => (v, v.write l (depth + 1))
    have shown : ∀ p ∈ ps, Shows p.1 p.2 := by
      intro p member
      obtain ⟨v, inside, rfl⟩ := List.mem_map.mp member
      exact ih v inside (depth + 1)
    have values : ps.map Prod.fst = vs := by simp [ps, Function.comp_def]
    have texts : ps.map Prod.snd = vs.map (Value.write l (depth + 1)) := by simp [ps, Function.comp_def]
    rw [same, ← values]
    exact .list shown (texts ▸ between)
  | @object fs values ih =>
    let ps : List ((String × Value) × List Char) := fs.map fun f => (f, f.2.write l (depth + 1))
    have shown : ∀ p ∈ ps, Shows p.1.2 p.2 := by
      intro p member
      obtain ⟨f, inside, rfl⟩ := List.mem_map.mp member
      exact ih f inside (depth + 1)
    have fields : ps.map Prod.fst = fs := by simp [ps, Function.comp_def]
    have members : ps.map (fun p => (p.1.1, p.2)) = written l depth fs := by simp [ps, written, Function.comp_def]
    rw [← fields]
    refine .object shown ?_
    rw [members, fields]
    exact objectText_write plain depth fs

end

variable {α β : Type} {x : Reader α} {v : α} {lead rest t u : List Char} {ts : List (List Char)}

structure Reads (x : Reader α) (v : α) (t : List Char) : Prop where
  starts : Starts t
  run : ∀ lead rest, AllBlank lead → EndsValue rest → x.run (lead ++ (t ++ rest)) = .ok (v, rest)

theorem reads_map (f : α → β) (reads : Reads x v t) : Reads (x.map f) (f v) t := by
  refine ⟨reads.starts, fun lead rest led ends => ?_⟩
  change (x.run _).map _ = _
  rw [reads.run lead rest led ends]
  rfl

theorem reads_text (expected : String) {s : String} (spells : Spells true s.toList t) :
    Reads (.text expected) s ('"' :: (t ++ ['"'])) := by
  refine ⟨⟨_, _, rfl, by decide, by decide, by decide⟩, fun lead rest led _ => ?_⟩
  change textRun expected _ = _
  simp only [List.cons_append, List.append_assoc, List.nil_append]
  rw [textRun, dropBlank_gap led (by decide)]
  simp only [readText_of_spells spells, String.ofList_toList]

theorem starts_integerText (n : Int) : Starts (integerText n) := (passed_number (isNumber_integerText n)).starts

theorem numberRun_integerText {expected : String} {accept : Number → Except Cause α} {n : Int}
    (low : -(Numeral.max63 : Int) - 1 ≤ n) (high : n ≤ Numeral.max64) (led : AllBlank lead) (ends : EndsValue rest)
    (accepts : accept (if 0 ≤ n then .natural n.toNat else .negative (-n).toNat) = .ok v) :
    numberRun expected accept (lead ++ (integerText n ++ rest)) = .ok (v, rest) := by
  have read := readNumber_integerText low high ends.number
  obtain ⟨c, s, same, front⟩ := head_isNumber (isNumber_integerText n)
  obtain ⟨d, s', same', solid, -, -⟩ := starts_integerText n
  obtain ⟨rfl, rfl⟩ := List.cons.inj (same.symm.trans same')
  rw [same, List.cons_append] at read ⊢
  rw [numberRun, dropBlank_gap led solid]
  dsimp only
  rw [if_pos front, read]
  dsimp only
  rw [accepts]

theorem reads_unsigned (expected : String) (n : UInt64) : Reads (.unsigned expected) n (integerText n.toNat) := by
  have bound := n.toNat_lt
  refine ⟨starts_integerText _, fun lead rest led ends => ?_⟩
  refine numberRun_integerText (by omega) (by simp only [Numeral.max64]; omega) led ends ?_
  rw [if_pos (Int.natCast_nonneg _), Int.toNat_natCast, acceptUnsigned, UInt64.ofNat_toNat]

theorem reads_signed (expected : String) (n : Int64) : Reads (.signed expected) n (integerText n.toInt) := by
  have low := n.le_toInt
  have high := n.toInt_lt
  refine ⟨starts_integerText _, fun lead rest led ends => ?_⟩
  refine numberRun_integerText (by simp only [Numeral.max63]; omega) (by simp only [Numeral.max64]; omega) led ends ?_
  split
  · rename_i positive
    have small : n.toInt.toNat ≤ Numeral.max63 := by simp only [Numeral.max63]; omega
    have back : Int64.ofNat n.toInt.toNat = n := by
      rw [← Int64.ofInt_eq_ofNat, Int.toNat_of_nonneg positive, Int64.ofInt_toInt]
    rw [acceptSigned, if_pos small, back]
  · rename_i negative
    have back : -((-n.toInt).toNat : Int) = n.toInt := by omega
    rw [acceptSigned, back, Int64.ofInt_toInt]

theorem reads_none (x : Reader α) : Reads x.nullable none "null".toList := by
  refine ⟨⟨'n', "ull".toList, rfl, by decide, by decide, by decide⟩, fun lead rest led _ => ?_⟩
  change nullableRun x (lead ++ 'n' :: ("ull".toList ++ rest)) = _
  have word := readWord_append "ull".toList rest
  rw [nullableRun, dropBlank_gap led (by decide)]
  split
  · rename_i same
    cases same
    rw [word]
  · rename_i other
    exact absurd rfl (other _)

theorem reads_some (reads : Reads x v ('"' :: t)) : Reads x.nullable (some v) ('"' :: t) := by
  refine ⟨reads.starts, fun lead rest led ends => ?_⟩
  have read := reads.run [] rest (List.forall_mem_nil _) ends
  rw [List.nil_append] at read
  change nullableRun x _ = _
  rw [List.cons_append] at read ⊢
  rw [nullableRun, dropBlank_gap led (by decide)]
  split
  · rename_i same
    cases same
  · rw [read]

theorem itemsRun_closed {first : Bool} {s : List Char} (next : nextItem first s = .ok (.closed rest)) :
    itemsRun x first s = .ok ([], rest) := by
  rw [itemsRun]
  split <;> rename_i other <;> cases next.symm.trans other
  rfl

theorem itemsRun_more {first : Bool} {s s' : List Char} {vs : List α} {rest' : List Char}
    (next : nextItem first s = .ok (.more s')) (item : x.run s' = .ok (v, rest))
    (later : itemsRun x false rest = .ok (vs, rest')) : itemsRun x first s = .ok (v :: vs, rest') := by
  rw [itemsRun]
  split <;> rename_i other <;> cases next.symm.trans other
  split <;> rename_i found <;> cases item.symm.trans found
  rw [later]

theorem nextItem_ending {gap : List Char} (first : Bool) (blank : AllBlank gap) (rest : List Char) :
    nextItem first (gap ++ ']' :: rest) = .ok (.closed rest) := by
  rw [nextItem, dropBlank_gap blank (by decide)]
  rfl

theorem nextItem_first (starts : Starts t) (led : AllBlank lead) (rest : List Char) :
    nextItem true (lead ++ (t ++ rest)) = .ok (.more (t ++ rest)) := by
  rw [nextItem, starts.drop led]
  obtain ⟨c, s, rfl, -, square, -⟩ := starts
  simp [square]

theorem nextItem_later {gap : List Char} (starts : Starts t) (blank : AllBlank gap) (led : AllBlank lead)
    (rest : List Char) : nextItem false (gap ++ ',' :: (lead ++ (t ++ rest))) = .ok (.more (t ++ rest)) := by
  rw [nextItem, dropBlank_gap blank (by decide)]
  dsimp only
  rw [starts.drop led]
  obtain ⟨c, s, rfl, -, square, -⟩ := starts
  simp [square]

theorem itemsRun_behind {ps : List (α × List Char)} (items : ∀ p ∈ ps, Reads x p.1 p.2)
    (behind : Behind (ps.map Prod.snd) u) :
    itemsRun x false (u ++ ']' :: rest) = .ok (ps.map Prod.fst, rest) := by
  induction ps generalizing u with
  | nil =>
    cases behind with
    | closed blank => exact itemsRun_closed (nextItem_ending false blank rest)
  | cons p ps ih =>
    obtain ⟨item, others⟩ := List.forall_mem_cons.mp items
    cases behind with
    | @part gap lead t u ts blank led later =>
      simp only [List.append_assoc, List.cons_append]
      have found := item.run [] (u ++ ']' :: rest) (List.forall_mem_nil _) (later.ends .square rest)
      exact itemsRun_more (nextItem_later item.starts blank led _) found (ih others later)

theorem reads_list {ps : List (α × List Char)} (items : ∀ p ∈ ps, Reads x p.1 p.2)
    (between : Between (ps.map Prod.snd) u) : Reads x.list (ps.map Prod.fst) ('[' :: (u ++ [']'])) := by
  refine ⟨⟨_, _, rfl, by decide, by decide, by decide⟩, fun lead rest led _ => ?_⟩
  change listRun x _ = _
  simp only [List.cons_append, List.append_assoc, List.nil_append]
  rw [listRun, dropBlank_gap led (by decide)]
  change itemsRun x true (u ++ ']' :: rest) = _
  cases ps with
  | nil =>
    cases between with
    | none blank => exact itemsRun_closed (nextItem_ending true blank rest)
  | cons p ps =>
    obtain ⟨item, others⟩ := List.forall_mem_cons.mp items
    cases between with
    | @parts lead t u ts led later =>
      rw [List.append_assoc, List.append_assoc]
      have found := item.run [] (u ++ ']' :: rest) (List.forall_mem_nil _) (later.ends .square rest)
      exact itemsRun_more (nextItem_first item.starts led _) found (itemsRun_behind others later)

section

variable {δ : Type} {r : Record δ} {d d' : δ}

/-- What a record takes of the members of an object, each a name with the text of a value: the draft before them and
behind them. -/
inductive Record.Takes (r : Record δ) : δ → List (String × List Char) → δ → Prop
  | nil {d : δ} : Takes r d [] d
  | known {d d' : δ} {name : String} {t : List Char} {ms : List (String × List Char)} {f : Field δ} {g : δ → δ}
      (found : r.fields.find? (fun f => f.name == name) = some f) (new : f.isGiven d = false)
      (reads : Reads f.value g t) (later : Takes r (g d) ms d') : Takes r d ((name, t) :: ms) d'
  | unknown {d d' : δ} {name : String} {t : List Char} {ms : List (String × List Char)}
      (missing : r.fields.find? (fun f => f.name == name) = none) (formed : WellFormed t) (later : Takes r d ms d') :
      Takes r d ((name, t) :: ms) d'

theorem nextField_ending {gap : List Char} (first : Bool) (blank : AllBlank gap) (rest : List Char) :
    nextField first (gap ++ '\x7d' :: rest) = .ok (.closed rest) := by
  rw [nextField, dropBlank_gap blank (by decide)]
  rfl

theorem nextField_first (led : AllBlank lead) (rest : List Char) :
    nextField true (lead ++ '"' :: rest) = .ok (.more rest) := by
  rw [nextField, dropBlank_gap led (by decide)]
  rfl

theorem nextField_later {gap : List Char} (blank : AllBlank gap) (led : AllBlank lead) (rest : List Char) :
    nextField false (gap ++ ',' :: (lead ++ '"' :: rest)) = .ok (.more rest) := by
  rw [nextField, dropBlank_gap blank (by decide)]
  dsimp only
  rw [dropBlank_gap led (by decide)]
  rfl

theorem readColon_gap {gap : List Char} (blank : AllBlank gap) (rest : List Char) :
    readColon (gap ++ ':' :: rest) = .ok rest := by
  rw [readColon, dropBlank_gap blank (by decide)]
  rfl

theorem Record.fieldsRun_closed {first : Bool} {s : List Char} (next : nextField first s = .ok (.closed rest))
    (complete : r.missing? d = none) : r.fieldsRun first d s = .ok (d, rest) := by
  rw [fieldsRun]
  split <;> rename_i other <;> cases next.symm.trans other
  rw [complete]

theorem Record.fieldsRun_more {first : Bool} {s s' name rest' : List Char}
    (next : nextField first s = .ok (.more s')) (text : readText true s' = .ok (name, rest))
    (new : (r.fields.find? fun f => f.name == String.ofList name).any (·.isGiven d) = false)
    (value : readField (r.fields.find? fun f => f.name == String.ofList name) d rest = .ok (d', rest')) :
    r.fieldsRun first d s = r.fieldsRun false d' rest' := by
  rw [fieldsRun]
  split <;> rename_i other <;> cases next.symm.trans other
  split <;> rename_i found <;> cases text.symm.trans found
  dsimp only
  rw [if_neg (Bool.eq_false_iff.mp new)]
  split <;> rename_i read <;> cases value.symm.trans read
  rfl

theorem Record.fieldsRun_member {first : Bool} {s w : List Char} {name : String} {ms : List (String × List Char)}
    {final : δ} (takes : r.Takes d ((name, t) :: ms) final) (field : FieldText true name.toList t ('"' :: w))
    (next : nextField first s = .ok (.more (w ++ rest))) (ends : EndsValue rest) :
    ∃ d', r.Takes d' ms final ∧ r.fieldsRun first d s = r.fieldsRun false d' rest := by
  obtain ⟨spells, blank, led⟩ := field
  rename_i spelt gap lead
  simp only [List.append_assoc, List.cons_append] at next
  have text : readText true (spelt ++ '"' :: (gap ++ ':' :: (lead ++ (t ++ rest)))) =
      .ok (name.toList, gap ++ ':' :: (lead ++ (t ++ rest))) := readText_of_spells spells
  have colon := readColon_gap blank (lead ++ (t ++ rest))
  have same : String.ofList name.toList = name := String.ofList_toList
  cases takes with
  | @known d _ _ _ _ f g found new reads later =>
    refine ⟨g d, later, fieldsRun_more next text ?_ ?_⟩
    · rw [same, found]
      exact new
    · rw [same, found, readField, colon]
      dsimp only
      rw [reads.run lead rest led ends]
      rfl
  | unknown missing formed later =>
    refine ⟨d, later, fieldsRun_more next text ?_ ?_⟩
    · rw [same, missing]
      rfl
    · rw [same, missing, readField, colon]
      dsimp only
      rw [formed.passed.passes [] lead rest led ends, skipAfter.eq_def]
      rfl

theorem FieldText.quote {sound : Bool} {name w : List Char} (field : FieldText sound name t w) :
    ∃ s, w = '"' :: s := by
  cases field
  exact ⟨_, rfl⟩

theorem Record.fieldsRun_behind {ms : List (String × List Char)} {ws : List (List Char)} (takes : r.Takes d ms d')
    (fields : List.Forall₂ (fun m w => FieldText true m.1.toList m.2 w) ms ws) (behind : Behind ws u)
    (complete : r.missing? d' = none) : r.fieldsRun false d (u ++ '\x7d' :: rest) = .ok (d', rest) := by
  induction fields generalizing d u with
  | nil =>
    cases takes with
    | nil =>
      cases behind with
      | closed blank => exact fieldsRun_closed (nextField_ending false blank rest) complete
  | @cons m w ms ws field fields ih =>
    cases behind with
    | @part gap lead _ u _ blank led later =>
      obtain ⟨s, rfl⟩ := field.quote
      simp only [List.append_assoc, List.cons_append]
      obtain ⟨d'', more, step⟩ := fieldsRun_member takes field (nextField_later blank led _)
        (later.ends .curly rest)
      exact step.trans (ih more later)

theorem reads_record {ms : List (String × List Char)} (takes : r.Takes d ms d') (complete : r.missing? d' = none)
    (object : ObjectText ms t) : Reads (r.reader d) d' t := by
  obtain ⟨fields, between⟩ := object
  rename_i ws u
  refine ⟨⟨_, _, rfl, by decide, by decide, by decide⟩, fun lead rest led _ => ?_⟩
  change r.run d _ = _
  simp only [List.cons_append, List.append_assoc, List.nil_append]
  rw [Record.run, dropBlank_gap led (by decide)]
  change r.fieldsRun true d (u ++ '\x7d' :: rest) = _
  cases fields with
  | nil =>
    cases takes with
    | nil =>
      cases between with
      | none blank => exact Record.fieldsRun_closed (nextField_ending true blank rest) complete
  | @cons m w ms ws field fields =>
    cases between with
    | @parts lead _ u _ led later =>
      obtain ⟨s, rfl⟩ := field.quote
      simp only [List.append_assoc, List.cons_append]
      obtain ⟨d'', more, step⟩ := Record.fieldsRun_member takes field (nextField_first led _)
        (later.ends .curly rest)
      exact step.trans (Record.fieldsRun_behind more fields later complete)

end

theorem document_of_reads {tail : List Char} (reads : Reads x v t) (led : AllBlank lead) (blank : AllBlank tail) :
    x.document (String.ofList (lead ++ (t ++ tail))) = .ok v := by
  have ends : EndsValue tail := by
    rw [← List.append_nil tail]
    exact endsValue_gap blank (by rintro c ⟨⟩)
  rw [Reader.document, String.toList_ofList, reads.run lead tail led ends]
  dsimp only
  rw [dropBlank_all blank]

end RomLedger.Json
