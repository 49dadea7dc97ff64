import RomLedger.Markup.Document
import RomLedger.Proofs.Markup.Reading
import RomLedger.Proofs.Markup.Writing

/- What is written for events is cut into pieces, and the pieces give those events again, in whatever portions
   the bytes come. -/
namespace RomLedger.Markup

open Reader (Through)

/-- A tag that can be written: its name and the keys of its attributes are names, and no key comes again. -/
def Tag.Sound (t : Tag) : Prop := ∃ name as, t.Shows name as ∧ Ordinary as ∧ Named (Bytes.ofString name)

/-- An event that can be written. -/
def Event.Sound : Event → Prop
  | .start t => t.Sound
  | .close name => Named name
  | .text s => Solid s
  | .ended => False

namespace Scanner

theorem tagStep_plain {b : UInt8} (open_ : b ≠ greaterThan) (plain : Attribute.isQuote b = false) :
    tagStep none b = .go none := by
  simp [tagStep, open_, plain]

theorem through_blank {gap : Bytes} (blank : ∀ b ∈ gap, isBlank b = true) : Through tagStep none gap none := by
  apply Reader.through_all
  intro b member
  have one_of : b = 32 ∨ b = 9 ∨ b = 10 ∨ b = 13 := by simpa [isBlank, or_assoc] using blank b member
  rcases one_of with rfl | rfl | rfl | rfl <;> rfl

theorem through_named {name : Bytes} (named : Named name) : Through tagStep none name none := by
  apply Reader.through_all
  intro b member
  obtain ⟨_, plain, _, _, _, open_, _⟩ := named.byte member
  exact tagStep_plain open_ plain

theorem through_quoted {b : Bytes} {q : UInt8} (delimits : Attribute.isQuote q = true) (inside : q ∉ b) :
    Through tagStep none (q :: (b ++ [q])) none := by
  have opens : tagStep none q = .go (some q) := by
    have one_of : q = 34 ∨ q = 39 := by simpa [Attribute.isQuote] using delimits
    rcases one_of with rfl | rfl <;> rfl
  have stays : ∀ c ∈ b, tagStep (some q) c = .go (some q) := by
    intro c member
    have other : c ≠ q := fun same => inside (same ▸ member)
    simp [tagStep, other]
  have closes : tagStep (some q) q = .go none := by simp [tagStep]
  exact (Reader.through_one opens).append ((Reader.through_all stays).append (Reader.through_one closes))

theorem through_listed {as : List (String × Value)} {b : Bytes} (listed : Listed as b)
    (named : ∀ p ∈ as, Named (Bytes.ofString p.1)) : Through tagStep none b none := by
  induction listed with
  | nil blank => exact through_blank blank
  | @cons key v as gap before after b rest q some_ blank blank' delimits writes inside later ih =>
    obtain ⟨front, named'⟩ := List.forall_mem_cons.mp named
    obtain ⟨blankBefore, blankAfter⟩ := List.forall_mem_append.mp blank'
    have equals_ : Through tagStep none [Attribute.equals] none := Reader.through_one rfl
    have whole := (through_blank blank).append ((through_named front).append ((through_blank blankBefore).append
      (equals_.append ((through_blank blankAfter).append ((through_quoted delimits inside).append (ih named'))))))
    simpa using whole

theorem through_content {t : Tag} (sound : t.Sound) : Through tagStep none t.content none := by
  obtain ⟨name, as, ⟨spelt, as', perm, listed⟩, ordinary, named⟩ := sound
  rw [Tag.content, spelt]
  exact (through_named named).append (through_listed listed (ordinary.perm perm).named)

theorem ofContent_content {t : Tag} (sound : t.Sound) : Tag.ofContent t.content = t := by
  obtain ⟨name, as, ⟨spelt, as', perm, listed⟩, ordinary, named⟩ := sound
  rw [← spelt] at named
  have solid : ∀ b ∈ t.name, (!isBlank b) = true := by
    intro b member
    simp [(named.byte member).1]
  have stops : ∀ b ∈ t.rest.head?, (!isBlank b) = false := by
    intro b front
    simp [listed.head b front]
  have name_ : t.content.takeWhile (fun c => !isBlank c) = t.name := takeWhile_front solid stops
  have rest : t.content.dropWhile (fun c => !isBlank c) = t.rest := by
    rw [Tag.content, dropWhile_front solid stops]
  rw [Tag.ofContent, name_, rest]

theorem last_listed {as : List (String × Value)} {b : Bytes} (listed : Listed as b) : b.getLast? ≠ some slash := by
  induction listed with
  | nil blank =>
    intro last
    have no := blank slash (List.mem_of_getLast? last)
    revert no
    decide
  | @cons key v as gap before after b rest q some_ blank blank' delimits writes inside later ih =>
    have back :
        (gap ++ (Bytes.ofString key ++ (before ++ Attribute.equals :: (after ++ q :: (b ++ q :: rest))))).getLast? =
          (q :: rest).getLast? := by
      have whole : gap ++ (Bytes.ofString key ++ (before ++ Attribute.equals :: (after ++ q :: (b ++ q :: rest)))) =
          (gap ++ Bytes.ofString key ++ before ++ Attribute.equals :: after ++ q :: b) ++ q :: rest := by simp
      rw [whole, List.getLast?_append_of_ne_nil _ (List.cons_ne_nil q rest)]
    rw [back]
    cases rest with
    | nil =>
      rintro ⟨⟩
      revert delimits
      decide
    | cons c rest =>
      rw [List.getLast?_cons_cons]
      exact ih

theorem last_content {t : Tag} (sound : t.Sound) : t.content.getLast? ≠ some slash := by
  obtain ⟨name, as, ⟨spelt, as', perm, listed⟩, ordinary, named⟩ := sound
  rw [← spelt] at named
  cases rest : t.rest with
  | nil =>
    rw [Tag.content, rest, List.append_nil]
    intro last
    obtain ⟨_, _, _, _, _, _, other, _⟩ := named.byte (List.mem_of_getLast? last)
    exact other rfl
  | cons c more =>
    rw [Tag.content, List.getLast?_append_of_ne_nil _ (by rw [rest]; exact List.cons_ne_nil c more)]
    exact last_listed listed

/-- A scanner in front of the text; it may have taken the bracket already. -/
structure At (s : Scanner) (opened : List Bytes) (text : Bytes) : Prop where
  opened : s.opened = opened
  calm : s.reader.Calm
  here : s.phase = .text ∧ s.reader.view = text ∨ s.phase = .markup ∧ lessThan :: s.reader.view = text

structure Inside (s : Scanner) (opened : List Bytes) (text : Bytes) : Prop where
  opened : s.opened = opened
  calm : s.reader.Calm
  phase : s.phase = .markup
  view : s.reader.view = text

theorem next_of_scan {s s' : Scanner} {p : Piece} (scan : s.scan = (.ok p, s')) (proper : p ≠ .ended) :
    s.next = (.ok p, s') := by
  rw [next, scan]
  split
  · rename_i other
    cases other
  · rename_i other
    cases other
  · rename_i other
    cases other
    exact absurd rfl proper
  · rfl

theorem through_text {b : Bytes} (free : lessThan ∉ b) : Through textStep () b () := by
  apply Reader.through_all
  intro c member
  have other : c ≠ lessThan := fun same => free (same ▸ member)
  simp [textStep, other]

theorem text_markup {s : Scanner} {rest : Bytes} (calm : s.reader.Calm) (view : s.reader.view = lessThan :: rest) :
    ∃ s' : Scanner, s'.Inside s.opened rest ∧ s.text = s'.scan := by
  obtain ⟨taken, stop, view', calm'⟩ :=
    Reader.run_last (b := []) calm view (through_text List.not_mem_nil) (u := ()) rfl
  refine ⟨⟨(s.reader.run textStep ()).reader, .markup, s.opened⟩, ⟨rfl, calm', rfl, view'⟩, ?_⟩
  simp only [text, stop, taken, List.nil_append, List.length_singleton, if_true]
  rfl

theorem next_gap {s : Scanner} {opened : List Bytes} {gap rest : Bytes} (at_ : s.At opened (gap ++ lessThan :: rest))
    (free : lessThan ∉ gap) :
    ∃ s', s'.Inside opened rest ∧
      (gap = [] ∧ s.next = s'.next ∨ gap ≠ [] ∧ s.phase = .text ∧ s.next = (.ok (.text gap), s')) := by
  obtain ⟨opened_, calm, ⟨phase, view⟩ | ⟨phase, view⟩⟩ := at_
  · have scans : s.scan = s.text := by rw [scan, phase]
    cases gap with
    | nil =>
      obtain ⟨s', inside, same⟩ := text_markup calm view
      rw [opened_] at inside
      refine ⟨s', inside, .inl ⟨rfl, ?_⟩⟩
      rw [next, scans, same]
      rfl
    | cons b gap =>
      obtain ⟨taken, stop, view', calm'⟩ := Reader.run_last calm view (through_text free) (u := ()) rfl
      refine ⟨⟨(s.reader.run textStep ()).reader, .markup, s.opened⟩, ⟨opened_, calm', rfl, view'⟩,
        .inr ⟨List.cons_ne_nil b gap, phase, next_of_scan ?_ Piece.noConfusion⟩⟩
      have dropped : (s.reader.run textStep ()).taken.dropLast = b :: gap := by rw [taken, List.dropLast_concat]
      have long : (s.reader.run textStep ()).taken.length ≠ 1 := by
        rw [taken]
        simp
      rw [scans]
      simp only [text, stop, long, if_false, dropped]
  · cases gap with
    | nil =>
      obtain ⟨-, view'⟩ := List.cons.inj view
      exact ⟨s, ⟨opened_, calm, phase, view'⟩, .inl ⟨rfl, rfl⟩⟩
    | cons b gap =>
      obtain ⟨same, -⟩ := List.cons.inj view
      exact absurd (same ▸ List.mem_cons_self) free

theorem scan_tag {s : Scanner} {opened : List Bytes} {c : UInt8} {b rest : Bytes}
    (inside : s.Inside opened (c :: b ++ greaterThan :: rest)) (plain : c ≠ bang ∧ c ≠ question)
    (through : Through tagStep none (c :: b) none) :
    ∃ s' : Scanner, s'.phase = .text ∧ s'.opened = opened ∧ s'.reader.Calm ∧ s'.reader.view = rest ∧
      s.scan = if c = slash then s'.endTag b else s'.startTag (c :: b) := by
  obtain ⟨opened_, calm, phase, view⟩ := inside
  obtain ⟨r, seen, calm', view', -⟩ := Reader.peek_of_cons calm view
  obtain ⟨taken, stop, view'', calm''⟩ := Reader.run_last calm' view' through (u := none) rfl
  refine ⟨⟨(r.run tagStep none).reader, .text, s.opened⟩, rfl, opened_, calm'', view'', ?_⟩
  have content : finished (r.run tagStep none) .tag = .ok (c :: b) := by
    rw [finished, stop, taken, List.dropLast_concat]
  rw [scan, phase]
  simp [markup, seen, plain.1, plain.2, content]

theorem content_cons {t : Tag} (sound : t.Sound) :
    ∃ c b, t.content = c :: b ∧ c ≠ bang ∧ c ≠ question ∧ c ≠ slash := by
  obtain ⟨name, as, ⟨spelt, -⟩, -, named⟩ := sound
  obtain ⟨c, bytes, whole⟩ := List.exists_cons_of_ne_nil named.some_
  obtain ⟨_, _, _, _, _, _, other, other', other''⟩ := named.byte (whole ▸ List.mem_cons_self)
  refine ⟨c, bytes ++ t.rest, ?_, other', other'', other⟩
  rw [Tag.content, spelt, whole]
  rfl

theorem next_start {s : Scanner} {opened : List Bytes} {t : Tag} {rest : Bytes} (sound : t.Sound)
    (inside : s.Inside opened (t.content ++ greaterThan :: rest)) :
    ∃ s', s.next = (.ok (.start t), s') ∧ s'.At (t.name :: opened) rest := by
  obtain ⟨c, b, whole, plain, plain', other⟩ := content_cons sound
  have through := through_content sound
  rw [whole] at inside through
  obtain ⟨s', phase, opened_, calm, view, scan⟩ := scan_tag inside ⟨plain, plain'⟩ through
  rw [if_neg other, ← whole] at scan
  refine ⟨{ s' with phase := .text, opened := t.name :: s'.opened }, next_of_scan ?_ Piece.noConfusion, ?_⟩
  · rw [scan, startTag, if_neg (last_content sound), ofContent_content sound]
  · exact ⟨congrArg (t.name :: ·) opened_, calm, .inl ⟨rfl, view⟩⟩

theorem next_empty {s : Scanner} {opened : List Bytes} {t : Tag} {rest : Bytes} (sound : t.Sound)
    (inside : s.Inside opened (t.content ++ slash :: greaterThan :: rest)) :
    ∃ s' s'', s.next = (.ok (.start t), s') ∧ s'.next = (.ok (.close t.name), s'') ∧ s''.At opened rest := by
  obtain ⟨c, b, whole, plain, plain', other⟩ := content_cons sound
  have through : Through tagStep none (t.content ++ [slash]) none :=
    (through_content sound).append (Reader.through_one rfl)
  have inside' : s.Inside opened (c :: (b ++ [slash]) ++ greaterThan :: rest) := by
    rw [whole] at inside
    simpa using inside
  rw [whole] at through
  obtain ⟨s', phase, opened_, calm, view, scan⟩ := scan_tag inside' ⟨plain, plain'⟩ through
  have content : c :: (b ++ [slash]) = t.content ++ [slash] := by
    rw [whole]
    rfl
  rw [if_neg other, content] at scan
  refine ⟨{ s' with phase := .impliedEnd, opened := t.name :: s'.opened }, { s' with phase := .text },
    next_of_scan ?_ Piece.noConfusion, next_of_scan rfl Piece.noConfusion, opened_, calm, .inl ⟨rfl, view⟩⟩
  rw [scan, startTag, if_pos List.getLast?_concat, List.dropLast_concat, ofContent_content sound]

theorem trimEnd_named {name space : Bytes} (named : Named name) (blank : ∀ b ∈ space, isBlank b = true) :
    trimEnd (name ++ space) = name := by
  have solid : ∀ b ∈ name.reverse.head?, isBlank b = false := by
    intro b last
    exact (named.byte (List.mem_reverse.mp (List.mem_of_head? last))).1
  have blank' : ∀ b ∈ space.reverse, isBlank b = true := fun b member => blank b (List.mem_reverse.mp member)
  rw [trimEnd, List.reverse_append, dropWhile_front blank' solid, List.reverse_reverse]

theorem next_close {s : Scanner} {opened : List Bytes} {name space rest : Bytes} (named : Named name)
    (blank : ∀ b ∈ space, isBlank b = true)
    (inside : s.Inside (name :: opened) (slash :: (name ++ (space ++ greaterThan :: rest)))) :
    ∃ s', s.next = (.ok (.close name), s') ∧ s'.At opened rest := by
  have slash_ : Through tagStep none [slash] none := Reader.through_one rfl
  have through : Through tagStep none (slash :: (name ++ space)) none :=
    slash_.append ((through_named named).append (through_blank blank))
  have inside' : s.Inside (name :: opened) (slash :: (name ++ space) ++ greaterThan :: rest) := by
    simpa using inside
  obtain ⟨s', phase, opened_, calm, view, scan⟩ := scan_tag inside' (by decide) through
  rw [if_pos rfl] at scan
  obtain ⟨c, bytes, whole⟩ := List.exists_cons_of_ne_nil named.some_
  have solid : (name ++ space).all isBlank = false := by
    rw [whole, List.cons_append, List.all_cons, (named.byte (whole ▸ List.mem_cons_self)).1, Bool.false_and]
  refine ⟨{ s' with phase := .text, opened := opened }, next_of_scan ?_ Piece.noConfusion, rfl, calm, .inl ⟨rfl, view⟩⟩
  rw [scan, endTag, solid, trimEnd_named named blank]
  simp [opened_]

/-- The scanner gives the pieces, one after the other, and then the end. -/
inductive Collects : Scanner → List Item → Prop
  | ended {s t : Scanner} (next : s.next = (.ok .ended, t)) (calm : t.reader.Calm) :
      Collects s [⟨.ok .ended, t.reader.meter.line⟩]
  | cons {s s' : Scanner} {p : Piece} {items : List Item} (next : s.next = (.ok p, s')) (proper : p ≠ .ended)
      (later : Collects s' items) : Collects s (⟨.ok p, s'.reader.meter.line⟩ :: items)

namespace Collects

variable {s s' : Scanner} {items : List Item}

theorem of_next (same : s.next = s'.next) (collects : Collects s' items) : Collects s items := by
  cases collects with
  | ended next calm => exact .ended (same.trans next) calm
  | cons next proper later => exact .cons (same.trans next) proper later

theorem collect (collects : Collects s items) {n : Nat} (enough : items.length ≤ n) :
    ∃ s', s.collect n = (items, s') ∧ s'.reader.Calm := by
  induction collects generalizing n with
  | @ended s s' next calm =>
    obtain ⟨n, rfl⟩ := Nat.exists_eq_add_of_le' enough
    refine ⟨s', ?_, calm⟩
    rw [List.length_singleton, Scanner.collect, next]
  | @cons s s' p items next proper later ih =>
    obtain ⟨n, rfl⟩ := Nat.exists_eq_add_of_le' enough
    obtain ⟨s'', collected, calm⟩ := ih (n := n + items.length) (Nat.le_add_left _ _)
    have collected' : Scanner.collect (n + items.length) s' = (items, s'') := collected
    refine ⟨s'', ?_, calm⟩
    rw [List.length_cons, ← Nat.add_assoc, Scanner.collect, next]
    cases p <;> simp_all

end Collects

end Scanner

def Item.IsMarkup (i : Item) : Prop :=
  (∃ t : Tag, t.Sound ∧ i.what = .ok (.start t)) ∨ ∃ name, i.what = .ok (.close name)

/-- Pieces that stand for the events. -/
inductive Shows : List Item → List Event → Prop
  | ended {line : Nat} : Shows [⟨.ok .ended, line⟩] []
  | blank {b : Bytes} {line : Nat} {items : List Item} {es : List Event} (blank : ∀ c ∈ b, isBlank c = true)
      (later : Shows items es) : Shows (⟨.ok (.text b), line⟩ :: items) es
  | note {line : Nat} {items : List Item} {es : List Event} (later : Shows items es) :
      Shows (⟨.ok .note, line⟩ :: items) es
  | start {t : Tag} {line : Nat} {items : List Item} {es : List Event} (sound : t.Sound) (later : Shows items es) :
      Shows (⟨.ok (.start t), line⟩ :: items) (.start t :: es)
  | close {name : Bytes} {line : Nat} {items : List Item} {es : List Event} (later : Shows items es) :
      Shows (⟨.ok (.close name), line⟩ :: items) (.close name :: es)
  | text {b : Bytes} {s : String} {line : Nat} {i : Item} {items : List Item} {es : List Event} (writes : Writes s b)
      (solid : Solid s) (markup : i.IsMarkup) (later : Shows (i :: items) es) :
      Shows (⟨.ok (.text b), line⟩ :: i :: items) (.text s :: es)

namespace Scanner

variable {s : Scanner} {opened : List Bytes} {es : List Event}

theorem lessThan_of_blank {gap : Bytes} (blank : ∀ b ∈ gap, isBlank b = true) : lessThan ∉ gap := by
  intro member
  have no := blank lessThan member
  revert no
  decide

theorem collects_gap {gap rest : Bytes} (at_ : s.At opened (gap ++ lessThan :: rest))
    (blank : ∀ b ∈ gap, isBlank b = true)
    (markup : ∀ s' : Scanner, s'.Inside opened rest → ∃ i items, Collects s' (i :: items) ∧ Shows (i :: items) es ∧
      (i :: items).length ≤ 2 * rest.length + 3 ∧ i.IsMarkup) :
    ∃ items, Collects s items ∧ Shows items es ∧ items.length ≤ 2 * (gap ++ lessThan :: rest).length + 1 ∧
      (s.phase = .markup → ∃ i is, items = i :: is ∧ i.IsMarkup) := by
  obtain ⟨s', inside, same⟩ := next_gap at_ (lessThan_of_blank blank)
  obtain ⟨i, items, collects, shows_, bound, front⟩ := markup s' inside
  rw [List.length_append, List.length_cons]
  rcases same with ⟨rfl, same⟩ | ⟨some_, phase, piece⟩
  · refine ⟨i :: items, collects.of_next same, shows_, ?_, fun _ => ⟨i, items, rfl, front⟩⟩
    omega
  · refine ⟨_, .cons piece Piece.noConfusion collects, .blank blank shows_, ?_, ?_⟩
    · have long : 0 < gap.length := List.length_pos_of_ne_nil some_
      rw [List.length_cons]
      omega
    · intro other
      rw [phase] at other
      cases other

theorem collects_end {gap : Bytes} (at_ : s.At opened gap) (blank : ∀ b ∈ gap, isBlank b = true) :
    ∃ items, Collects s items ∧ Shows items [] ∧ items.length ≤ 2 * gap.length + 1 ∧
      (s.phase = .markup → ∃ i is, items = i :: is ∧ i.IsMarkup) := by
  have free := lessThan_of_blank blank
  obtain ⟨-, calm, ⟨phase, view⟩ | ⟨-, view⟩⟩ := at_
  · obtain ⟨taken, stop, calm'⟩ := Reader.run_ended calm view (through_text free)
    have scans : s.scan = (.ok (if gap = [] then .ended else .text gap),
        ⟨(s.reader.run textStep ()).reader, .done, s.opened⟩) := by
      rw [scan, phase]
      simp only [text, stop, taken]
    cases gap with
    | nil =>
      rw [if_pos rfl] at scans
      refine ⟨_, .ended (t := ⟨(s.reader.run textStep ()).reader, .done, s.opened⟩) ?_ calm', .ended, Nat.le_refl _, ?_⟩
      · rw [next, scans]
      · intro other
        rw [phase] at other
        cases other
    | cons b gap =>
      rw [if_neg (List.cons_ne_nil b gap)] at scans
      refine ⟨_, .cons (next_of_scan scans Piece.noConfusion) Piece.noConfusion (.ended rfl calm'),
        .blank blank .ended, ?_, ?_⟩
      · simp only [List.length_cons, List.length_nil]
        omega
      · intro other
        rw [phase] at other
        cases other
  · exact absurd (view ▸ List.mem_cons_self) free

theorem collects_written {text : Bytes} (written : Written opened es text) (sound : ∀ e ∈ es, e.Sound)
    (at_ : s.At opened text) :
    ∃ items, Collects s items ∧ Shows items es ∧ items.length ≤ 2 * text.length + 1 ∧
      (s.phase = .markup → ∃ i is, items = i :: is ∧ i.IsMarkup) := by
  induction written generalizing s with
  | @ended gap blank => exact collects_end at_ blank
  | @start opened t es gap rest blank later ih =>
    obtain ⟨front, sound'⟩ := List.forall_mem_cons.mp sound
    apply collects_gap at_ blank
    intro s' inside
    obtain ⟨s'', piece, at'⟩ := next_start front inside
    obtain ⟨items, collects, shows_, bound, -⟩ := ih sound' at'
    refine ⟨_, items, .cons piece Piece.noConfusion collects, .start front shows_, ?_, .inl ⟨t, front, rfl⟩⟩
    simp only [List.length_cons, List.length_append]
    omega
  | @empty opened t es gap rest blank later ih =>
    obtain ⟨front, sound'⟩ := List.forall_mem_cons.mp sound
    obtain ⟨-, sound''⟩ := List.forall_mem_cons.mp sound'
    apply collects_gap at_ blank
    intro s' inside
    obtain ⟨s₁, s₂, piece, piece', at'⟩ := next_empty front inside
    obtain ⟨items, collects, shows_, bound, -⟩ := ih sound'' at'
    refine ⟨_, _, .cons piece Piece.noConfusion (.cons piece' Piece.noConfusion collects),
      .start front (.close shows_), ?_, .inl ⟨t, front, rfl⟩⟩
    simp only [List.length_cons, List.length_append]
    omega
  | @close opened name es gap space rest blank later ih =>
    obtain ⟨front, sound'⟩ := List.forall_mem_cons.mp sound
    obtain ⟨blank', blank''⟩ := List.forall_mem_append.mp blank
    apply collects_gap at_ blank'
    intro s' inside
    obtain ⟨s'', piece, at'⟩ := next_close front blank'' inside
    obtain ⟨items, collects, shows_, bound, -⟩ := ih sound' at'
    refine ⟨_, items, .cons piece Piece.noConfusion collects, .close shows_, ?_, .inr ⟨name, rfl⟩⟩
    simp only [List.length_cons, List.length_append]
    omega
  | @text opened string es b rest writes later ih =>
    obtain ⟨front, sound'⟩ := List.forall_mem_cons.mp sound
    obtain ⟨some_, -⟩ := trimmed_of_writes writes front
    obtain ⟨s', inside, ⟨none_, -⟩ | ⟨-, phase, piece⟩⟩ := next_gap at_ (lessThan_of_writes writes)
    · exact absurd none_ some_
    · obtain ⟨opened_, calm, phase', view⟩ := inside
      have at' : s'.At opened (lessThan :: rest) := ⟨opened_, calm, .inr ⟨phase', congrArg (lessThan :: ·) view⟩⟩
      obtain ⟨items, collects, shows_, bound, first⟩ := ih sound' at'
      obtain ⟨i, items, rfl, markup⟩ := first phase'
      refine ⟨_, .cons piece Piece.noConfusion collects, .text writes front markup shows_, ?_, ?_⟩
      · have long : 0 < b.length := List.length_pos_of_ne_nil some_
        simp only [List.length_cons, List.length_append] at bound ⊢
        omega
      · intro other
        rw [phase] at other
        cases other

end Scanner

namespace Tape

theorem next_of_start {t : Tape} {tag : Tag} (ahead : t.ahead = .ok (.start tag)) :
    t.next = (.ok (.start tag), t.advance.2) := by
  rw [Tape.next]
  split <;> simp_all

theorem next_of_close {t : Tape} {name : Bytes} (ahead : t.ahead = .ok (.close name)) :
    t.next = (.ok (.close name), t.advance.2) := by
  rw [Tape.next]
  split <;> simp_all

theorem next_of_text {t : Tape} {b : Bytes} {s : String} (ahead : t.ahead = .ok (.text b)) (writes : Writes s b)
    (solid : Solid s) (apart : t.advance.2.continues = false) : t.next = (.ok (.text s), t.advance.2) := by
  obtain ⟨some_, -, trimmed⟩ := trimmed_of_writes writes solid
  have visible : t.advance.2.visible b = b := by rw [visible, apart, if_neg Bool.false_ne_true, trimmed]
  have whole : b.isEmpty = false := by simpa using some_
  have understood := Entity.text_writes writes
  rw [Tape.next]
  split <;> rename_i seen <;> rw [ahead] at seen <;> cases seen
  simp only [visible, whole, Bool.false_eq_true, if_false, understood]
  rw [join, dif_neg (by simp [apart])]

theorem pull_start {tag : Tag} (sound : tag.Sound) (scopes : Scopes) (line' : Nat) (items : List Item) :
    ∃ inner, ∀ trim line, pull trim scopes line (⟨.ok (.start tag), line'⟩ :: items) =
      ⟨.ok (.start tag), items, true, inner, line'⟩ := by
  obtain ⟨name, as, shows_, ordinary, -⟩ := sound
  obtain ⟨inner, enters⟩ := shows_.enter ordinary scopes.settle
  refine ⟨inner, fun trim line => ?_⟩
  rw [pull]
  simp only [enters]

theorem pull_markup {i : Item} (markup : i.IsMarkup) (trim : Bool) (scopes : Scopes) (line : Nat) (items : List Item) :
    pull trim scopes line (i :: items) = pull true scopes line (i :: items) ∧
      (pull trim scopes line (i :: items)).continues = false := by
  obtain ⟨what, line'⟩ := i
  obtain ⟨t, sound, rfl⟩ | ⟨name, rfl⟩ := markup
  · obtain ⟨inner, pulled⟩ := pull_start sound scopes line' items
    rw [pulled, pulled]
    exact ⟨rfl, rfl⟩
  · exact ⟨rfl, rfl⟩

theorem gives_of_shows {items : List Item} {es : List Event} (shows_ : Shows items es) (scopes : Scopes) (line : Nat) :
    (pull true scopes line items).Gives es := by
  induction shows_ generalizing scopes line with
  | ended => exact .nil
  | @blank b line' items es blank later ih =>
    have none_ : Scanner.trimStart b = [] := List.dropWhile_eq_nil_iff.mpr blank
    have dropped : pull true scopes line (⟨.ok (.text b), line'⟩ :: items) = pull true scopes.settle line' items := by
      rw [pull, if_pos rfl, none_]
      rfl
    rw [dropped]
    exact ih _ _
  | note later ih => exact ih _ _
  | @start t line' items es sound later ih =>
    obtain ⟨inner, pulled⟩ := pull_start sound scopes line' items
    rw [pulled]
    exact .cons (next_of_start rfl) Event.noConfusion (ih _ _)
  | close later ih =>
    exact .cons (next_of_close rfl) Event.noConfusion (ih _ _)
  | @text b s line' i items es writes solid markup later ih =>
    obtain ⟨some_, trimmed, -⟩ := trimmed_of_writes writes solid
    have whole : b.isEmpty = false := by simpa using some_
    have pulled : pull true scopes line (⟨.ok (.text b), line'⟩ :: i :: items) =
        ⟨.ok (.text b), i :: items, false, scopes.settle, line'⟩ := by
      rw [pull]
      simp only [if_true, trimmed, whole, Bool.false_eq_true, if_false]
    obtain ⟨same, apart⟩ := pull_markup markup false scopes.settle line' items
    rw [pulled]
    refine .cons (next_of_text rfl writes solid apart) Event.noConfusion ?_
    change (pull false scopes.settle line' (i :: items)).Gives es
    rw [same]
    exact ih _ _

end Tape

namespace Scanner

theorem next_opening {r : Reader} {rest : Bytes} (calm : r.Calm) (view : r.view = lessThan :: rest) :
    ∃ s' : Scanner, s'.Inside [] rest ∧ (ofReader r).next = s'.next := by
  obtain ⟨r', seen, calm', view', -⟩ := Reader.peek_of_cons calm view
  obtain ⟨more, filled⟩ : ∃ more, r.fill = (some (lessThan :: more), r') := by
    unfold Reader.peek at seen
    split at seen <;> simp_all
  have buffer : r'.buffer = lessThan :: more := by
    have held := Reader.buffer_of_fill (r := r) (b := lessThan :: more) (by rw [filled])
    rwa [filled] at held
  have same : { r' with buffer := Bytes.withoutMark (lessThan :: more) } = r' := by
    have unmarked : Bytes.withoutMark (lessThan :: more) = lessThan :: more := rfl
    rw [unmarked, ← buffer]
  obtain ⟨s', inside, scans⟩ := text_markup (s := ⟨r', .opening, []⟩) calm' view'
  refine ⟨s', inside, ?_⟩
  have opening : (ofReader r).scan = s'.scan := by
    rw [← scans]
    simp only [ofReader, scan, atOpening, filled, same]
  rw [next, opening, ← next]

theorem next_declaration {s : Scanner} {opened : List Bytes} {d rest : Bytes} (plain : question ∉ d)
    (inside : s.Inside opened (Bytes.ofString "?xml" ++ (d ++ (Bytes.ofString "?>" ++ rest)))) :
    ∃ s', s.next = (.ok .note, s') ∧ s'.At opened rest := by
  obtain ⟨opened_, calm, phase, view⟩ := inside
  have opens : Bytes.ofString "?xml" = [question, 120, 109, 108] := by decide
  have closes : Bytes.ofString "?>" = [question, greaterThan] := by decide
  have goes : ∀ c ∈ 109 :: 108 :: d, instructionStep false c = .go false := by
    intro c member
    have other : c ≠ question := by
      rintro rfl
      simp only [List.mem_cons] at member
      rcases member with same | same | among
      · exact absurd same (by decide)
      · exact absurd same (by decide)
      · exact plain among
    simp [instructionStep, other]
  have first : Through instructionStep false [question] true := Reader.through_one rfl
  have second : Through instructionStep true [120] false := Reader.through_one rfl
  have through : Through instructionStep false (question :: 120 :: 109 :: 108 :: (d ++ [question])) true :=
    first.append (second.append ((Reader.through_all goes).append first))
  have view' : s.reader.view = question :: 120 :: 109 :: 108 :: (d ++ [question]) ++ greaterThan :: rest := by
    rw [view, opens, closes]
    simp
  obtain ⟨r, seen, calm', view'', -⟩ := Reader.peek_of_cons calm view'
  obtain ⟨taken, stop, behind, calm''⟩ := Reader.run_last calm' view'' through (u := false) rfl
  have content : finished (r.run instructionStep false) .instruction =
      .ok (question :: 120 :: 109 :: 108 :: (d ++ [question])) := by
    rw [finished, stop, taken, List.dropLast_concat]
  refine ⟨⟨(r.run instructionStep false).reader, .text, s.opened⟩, next_of_scan ?_ Piece.noConfusion, opened_, calm'',
    .inl ⟨rfl, behind⟩⟩
  have other : (question == bang) = false := by decide
  rw [scan, phase]
  simp [markup, seen, other, content]

theorem pieces_document {f : Feed} {es : List Event} (calm : f.failing = false) (document : Document es f.rest)
    (sound : ∀ e ∈ es, e.Sound) :
    ∃ items s, (ofReader (.ofFeed f)).pieces = (items, s) ∧ s.reader.Calm ∧ (Tape.ofItems items).Gives es := by
  obtain ⟨d, rest, plain, written, whole⟩ := document
  have view : (Reader.ofFeed f).view = lessThan :: (Bytes.ofString "?xml" ++ (d ++ (Bytes.ofString "?>" ++ rest))) := by
    change [] ++ f.rest = _
    rw [whole, List.nil_append]
  obtain ⟨s, inside, same⟩ := next_opening (r := .ofFeed f) calm view
  obtain ⟨s', piece, at_⟩ := next_declaration plain inside
  obtain ⟨items, collects, shows_, bound, -⟩ := collects_written written sound at_
  have all : Collects (ofReader (.ofFeed f)) (⟨.ok .note, s'.reader.meter.line⟩ :: items) :=
    .cons (same.trans piece) Piece.noConfusion collects
  have enough : (⟨.ok .note, s'.reader.meter.line⟩ :: items : List Item).length ≤
      2 * (ofReader (.ofFeed f)).reader.left + 3 := by
    have size : (ofReader (.ofFeed f)).reader.left = f.rest.length := Nat.zero_add _
    rw [size, whole]
    simp only [List.length_cons, List.length_append]
    omega
  obtain ⟨s'', collected, calm'⟩ := all.collect enough
  exact ⟨_, s'', collected, calm', Tape.gives_of_shows (.note shows_) .outermost 1⟩

end Scanner

end RomLedger.Markup
