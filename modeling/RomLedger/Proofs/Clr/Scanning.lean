import RomLedger.Proofs.Catalog.Digest
import RomLedger.Proofs.Clr.Layout

/- The tokens of a text, cut from it one by one. They depend neither on the portions in which the text comes
   nor on what stands behind them, except that a word goes as far as it can. -/
namespace RomLedger

theorem Bytes.newlines_append (a b : Bytes) : Bytes.newlines (a ++ b) = Bytes.newlines a + Bytes.newlines b :=
  List.count_append

theorem Bytes.newlines_of_all {p : UInt8 → Bool} {b : Bytes} (all : ∀ c ∈ b, p c = true)
    (no_line : p Bytes.newline = false) : Bytes.newlines b = 0 :=
  List.count_eq_zero.mpr fun member => by simp [all _ member] at no_line

namespace Clr

/-- A token wherever it stands: its line is left out. -/
def Token.placeless (t : Token) : Token := { t with line := 0 }

def Kind.isSpelt : Kind → Bool
  | .bare | .keyword _ => true
  | _ => false

theorem isSpelt_classify (s : String) : (classify s).isSpelt = true := by
  unfold classify
  split <;> rfl

namespace Lexer

/-- What follows the opening mark, or as much of the mark as there is. -/
def unmarked (text : Bytes) : Bytes := (Reader.walk markStep Bytes.mark text).rest

def cutQuoted (delimiter : UInt8) (text : Bytes) : Token × Bytes :=
  let w := Reader.walk (quoteStep delimiter) false text
  match w.stop with
  | .last => (⟨.quoted, Utf8.lossy (unescape delimiter w.taken.dropLast), 0⟩, w.rest)
  | _ => (⟨.faulty, unterminated, 0⟩, w.rest)

def cutBare (b : UInt8) (text : Bytes) : Token × Bytes :=
  let s := Utf8.lossy (b :: text.takeWhile isBare)
  (⟨classify s, s, 0⟩, text.dropWhile isBare)

/-- The token that begins with the first byte of a text, and what follows it. -/
def cutHere : Bytes → Token × Bytes
  | [] => (⟨.ended, "", 0⟩, [])
  | b :: rest =>
    if b == openParen then (⟨.openBrace, "(", 0⟩, rest)
    else if b == closeParen then (⟨.closeBrace, ")", 0⟩, rest)
    else if isDelimiter b then cutQuoted b rest
    else cutBare b rest

def cut (text : Bytes) : Token × Bytes := cutHere (text.dropWhile isSeparator)

theorem rest_cutQuoted (d : UInt8) (text : Bytes) :
    (cutQuoted d text).2 = (Reader.walk (quoteStep d) false text).rest := by
  unfold cutQuoted
  dsimp only
  split <;> rfl

theorem suffix_cutHere (b : UInt8) (rest : Bytes) : (cutHere (b :: rest)).2 <:+ rest := by
  rw [cutHere]
  split
  · exact List.suffix_rfl
  · split
    · exact List.suffix_rfl
    · split
      · rw [rest_cutQuoted]
        exact ⟨_, Reader.walk_parts ..⟩
      · exact List.dropWhile_suffix isBare

theorem suffix_cut (text : Bytes) : (cut text).2 <:+ text := by
  have front := List.dropWhile_suffix isSeparator (l := text)
  rw [cut]
  cases solid : text.dropWhile isSeparator with
  | nil => exact List.nil_suffix
  | cons b rest =>
    rw [solid] at front
    exact ((suffix_cutHere b rest).trans (List.suffix_cons b rest)).trans front

theorem length_cut {text : Bytes} (proper : (cut text).1.kind.isLast = false) :
    (cut text).2.length < text.length := by
  have front := List.dropWhile_suffix isSeparator (l := text)
  rw [cut] at proper ⊢
  cases solid : text.dropWhile isSeparator with
  | nil =>
    rw [solid] at proper
    cases proper
  | cons b rest =>
    rw [solid] at front
    exact Nat.lt_of_le_of_lt (suffix_cutHere b rest).length_le front.length_le

theorem cut_gap {gap : Bytes} (blank : ∀ b ∈ gap, isSeparator b = true) (text : Bytes) :
    cut (gap ++ text) = cut text := by
  rw [cut, cut, List.dropWhile_append_of_pos blank]

theorem cut_of_blank {gap : Bytes} (blank : ∀ b ∈ gap, isSeparator b = true) :
    (cut gap).1.kind = .ended := by
  rw [← List.append_nil gap, cut_gap blank]
  rfl

theorem kind_cutQuoted (d : UInt8) (text : Bytes) : (cutQuoted d text).1.kind ≠ .ended := by
  unfold cutQuoted
  dsimp only
  split <;> exact Kind.noConfusion

theorem blank_of_ended {text : Bytes} (ended : (cut text).1.kind = .ended) :
    ∀ b ∈ text, isSeparator b = true := by
  rw [cut] at ended
  rw [← List.dropWhile_eq_nil_iff]
  cases front : text.dropWhile isSeparator with
  | nil => rfl
  | cons b rest =>
    rw [front, cutHere] at ended
    split at ended
    · cases ended
    · split at ended
      · cases ended
      · split at ended
        · exact absurd ended (kind_cutQuoted _ _)
        · exact absurd ended (kind_classify _)

section

variable {front back left tail : Bytes} {t : Token}

theorem span_elsewhere {p : UInt8 → Bool} (rest : (front ++ back).dropWhile p = left ++ back)
    (apart : left = [] → ∀ b ∈ tail.head?, p b = false) :
    (front ++ tail).dropWhile p = left ++ tail ∧
      (front ++ tail).takeWhile p = (front ++ back).takeWhile p := by
  induction front with
  | nil =>
    have parts := congrArg List.length (List.takeWhile_append_dropWhile (p := p) (l := back))
    rw [List.nil_append] at rest
    rw [List.length_append, rest, List.length_append] at parts
    have none_taken : back.takeWhile p = [] := List.eq_nil_of_length_eq_zero (by omega)
    have none_left : left = [] := List.eq_nil_of_length_eq_zero (by omega)
    rw [List.nil_append, List.nil_append, none_taken, none_left, List.nil_append]
    cases tail with
    | nil => exact ⟨rfl, rfl⟩
    | cons b more =>
      have stops := apart none_left b rfl
      exact ⟨List.dropWhile_cons_of_neg (Bool.eq_false_iff.mp stops),
        List.takeWhile_cons_of_neg (Bool.eq_false_iff.mp stops)⟩
  | cons b more ih =>
    simp only [List.cons_append, List.dropWhile_cons, List.takeWhile_cons] at rest ⊢
    split at rest
    · rename_i goes
      obtain ⟨dropped, taken⟩ := ih rest
      rw [if_pos goes, if_pos goes, if_pos goes, taken]
      exact ⟨dropped, rfl⟩
    · rename_i stops
      rw [if_neg stops, if_neg stops, if_neg stops, ← List.cons_append,
        List.append_cancel_right ((List.cons_append ..).trans rest)]
      exact ⟨rfl, rfl⟩

theorem cutQuoted_elsewhere {d : UInt8} (here : cutQuoted d (front ++ back) = (t, left ++ back))
    (proper : t.kind.isLast = false) : cutQuoted d (front ++ tail) = (t, left ++ tail) := by
  have rest := (rest_cutQuoted d (front ++ back)).symm.trans (congrArg Prod.snd here)
  unfold cutQuoted at here ⊢
  dsimp only at here ⊢
  split at here
  · rename_i last
    obtain ⟨rfl, -⟩ := Prod.mk.inj here
    rw [Reader.walk_elsewhere rest (.inr last) tail]
    simp only [last]
  · obtain ⟨rfl, -⟩ := Prod.mk.inj here
    cases proper

theorem cutBare_elsewhere {b : UInt8} (here : cutBare b (front ++ back) = (t, left ++ back))
    (apart : left = [] → t.kind.isSpelt = true → ∀ b ∈ tail.head?, isBare b = false) :
    cutBare b (front ++ tail) = (t, left ++ tail) := by
  obtain ⟨rfl, rest⟩ := Prod.mk.inj here
  obtain ⟨dropped, taken⟩ := span_elsewhere rest fun none_left => apart none_left (isSpelt_classify _)
  rw [cutBare, dropped, taken]

theorem cutHere_elsewhere {b : UInt8} (here : cutHere (b :: (front ++ back)) = (t, left ++ back))
    (proper : t.kind.isLast = false)
    (apart : left = [] → t.kind.isSpelt = true → ∀ b ∈ tail.head?, isBare b = false) :
    cutHere (b :: (front ++ tail)) = (t, left ++ tail) := by
  rw [cutHere] at here ⊢
  split at here
  · rename_i opens
    obtain ⟨rfl, rest⟩ := Prod.mk.inj here
    rw [if_pos opens, List.append_cancel_right rest]
  · rename_i unopened
    rw [if_neg unopened]
    split at here
    · rename_i closes
      obtain ⟨rfl, rest⟩ := Prod.mk.inj here
      rw [if_pos closes, List.append_cancel_right rest]
    · rename_i unclosed
      rw [if_neg unclosed]
      split at here
      · rename_i delimits
        rw [if_pos delimits]
        exact cutQuoted_elsewhere here proper
      · rename_i undelimited
        rw [if_neg undelimited]
        exact cutBare_elsewhere here apart

theorem cut_elsewhere (here : cut (front ++ back) = (t, left ++ back)) (proper : t.kind.isLast = false)
    (apart : left = [] → t.kind.isSpelt = true → ∀ b ∈ tail.head?, isBare b = false) :
    cut (front ++ tail) = (t, left ++ tail) := by
  rw [cut, List.dropWhile_append] at here ⊢
  cases solid : front.dropWhile isSeparator with
  | nil =>
    -- the token would begin behind the front, and less than the back would be left of it
    rw [solid, List.isEmpty_nil, if_pos rfl] at here
    have shorter : (cut back).2.length < back.length := length_cut (by rw [cut, here]; exact proper)
    rw [cut, here, List.length_append] at shorter
    omega
  | cons b more =>
    rw [solid, List.isEmpty_cons, if_neg Bool.false_ne_true, List.cons_append] at here
    rw [List.isEmpty_cons, if_neg Bool.false_ne_true, List.cons_append]
    exact cutHere_elsewhere here proper apart

end

/-- The text begins with the tokens, and the rest follows them. Every token is cut with all that really follows
it, so that no word is cut short. -/
inductive Scans : Bytes → List Token → Bytes → Prop
  | nil {text : Bytes} : Scans text [] text
  | cons {text more rest : Bytes} {t : Token} {ts : List Token} (front : cut text = (t, more))
      (proper : t.kind.isLast = false) (later : Scans more ts rest) : Scans text (t :: ts) rest

def take? : Nat → Bytes → Option (List Token × Bytes)
  | 0, text => some ([], text)
  | n + 1, text =>
    if (cut text).1.kind.isLast then none
    else (take? n (cut text).2).map fun r => ((cut text).1 :: r.1, r.2)

/-- The tokens are all that is in a text. -/
def Lexes (text : Bytes) (ts : List Token) : Prop :=
  ∃ gap, Scans text ts gap ∧ ∀ b ∈ gap, isSeparator b = true

variable {text middle rest gap back tail : Bytes} {ts us : List Token}

theorem scans_of_take? {n : Nat} (taken : take? n text = some (ts, rest)) : Scans text ts rest := by
  induction n generalizing text ts with
  | zero =>
    cases taken
    exact .nil
  | succ n ih =>
    rw [take?] at taken
    split at taken
    · cases taken
    · rename_i proper
      obtain ⟨r, later, same⟩ := Option.map_eq_some_iff.mp taken
      cases same
      exact .cons rfl (Bool.eq_false_iff.mpr proper) (ih later)

theorem Scans.suffix (scans : Scans text ts rest) : rest <:+ text := by
  induction scans with
  | nil => exact List.suffix_rfl
  | @cons text more rest t ts front proper later ih =>
    have next := suffix_cut text
    rw [front] at next
    exact ih.trans next

theorem Scans.length (scans : Scans text ts rest) (some_ : ts ≠ []) : rest.length < text.length := by
  cases scans with
  | nil => exact absurd rfl some_
  | @cons text more rest t ts front proper later =>
    have shorter : (cut text).2.length < text.length := length_cut (by rwa [front])
    rw [front] at shorter
    exact Nat.lt_of_le_of_lt later.suffix.length_le shorter

theorem Scans.append (first : Scans text ts middle) (second : Scans middle us rest) :
    Scans text (ts ++ us) rest := by
  induction first with
  | nil => exact second
  | cons front proper later ih => exact .cons front proper (ih second)

theorem Scans.lexes (first : Scans text ts middle) (second : Lexes middle us) : Lexes text (ts ++ us) := by
  obtain ⟨gap, scans, blank⟩ := second
  exact ⟨gap, first.append scans, blank⟩

theorem Scans.split (first : Scans text ts middle) (whole : Lexes text us) :
    ∃ vs, us = ts ++ vs ∧ Lexes middle vs := by
  induction first generalizing us with
  | nil => exact ⟨us, rfl, whole⟩
  | cons front proper later ih =>
    obtain ⟨gap, scans, blank⟩ := whole
    cases scans with
    | nil =>
      have ended := cut_of_blank blank
      rw [front] at ended
      rw [ended] at proper
      cases proper
    | cons front' _ later' =>
      cases front.symm.trans front'
      obtain ⟨vs, rfl, more⟩ := ih ⟨gap, later', blank⟩
      exact ⟨vs, rfl, more⟩

theorem Scans.elsewhere {u v : Bytes} (scans : Scans (u ++ back) ts (v ++ back))
    (apart : ∀ b ∈ tail.head?, isBare b = false) : Scans (u ++ tail) ts (v ++ tail) := by
  generalize whole : u ++ back = text at scans
  generalize left : v ++ back = rest at scans
  induction scans generalizing u with
  | nil =>
    rw [List.append_cancel_right (whole.trans left.symm)]
    exact .nil
  | @cons text more rest t ts front proper later ih =>
    subst whole left
    obtain ⟨w, between⟩ := (List.suffix_append v back).trans later.suffix
    subst between
    exact .cons (cut_elsewhere front proper fun _ _ => apart) proper (ih rfl rfl)

theorem lexes_gap (blank : ∀ b ∈ gap, isSeparator b = true) : Lexes (gap ++ text) ts ↔ Lexes text ts := by
  constructor
  · rintro ⟨left, scans, solid⟩
    cases scans with
    | nil => exact ⟨text, .nil, fun b member => solid b (List.mem_append_right gap member)⟩
    | cons front proper later => exact ⟨left, .cons ((cut_gap blank text).symm.trans front) proper later, solid⟩
  · rintro ⟨left, scans, solid⟩
    cases scans with
    | nil => exact ⟨gap ++ text, .nil, List.forall_mem_append.mpr ⟨blank, solid⟩⟩
    | cons front proper later => exact ⟨left, .cons ((cut_gap blank text).trans front) proper later, solid⟩

theorem Lexes.append (first : Lexes text ts) (second : Lexes tail us)
    (apart : ∀ b ∈ tail.head?, isBare b = false) : Lexes (text ++ tail) (ts ++ us) := by
  obtain ⟨gap, scans, blank⟩ := first
  have scans : Scans (text ++ []) ts (gap ++ []) := by rwa [List.append_nil, List.append_nil]
  exact (scans.elsewhere apart).lexes ((lexes_gap blank).mpr second)

/-- A lexer past the mark with a text before it, and a failure behind that or not. -/
structure Ahead (l : Lexer) (failing : Bool) (text : Bytes) : Prop where
  same : l.reader.failing = failing
  view : l.reader.view = text
  sound : l.failed = false
  started : l.started = true

/-- The token that is cut at a line, or the failure that comes instead where nothing is left behind it. -/
inductive Found (failing : Bool) (line : Nat) (cut : Token × Bytes) : Token → Prop
  | cut {t : Token} (token : t.placeless = cut.1) (place : t.line = line) : Found failing line cut t
  | failed (fails : failing = true) (whole : cut.2 = []) : Found failing line cut ⟨.faulty, faultText, line⟩

theorem Found.placeless {failing : Bool} {line : Nat} {cut : Token × Bytes} {t : Token}
    (found : Found failing line cut t) (proper : t.kind.isLast = false) : t.placeless = cut.1 := by
  cases found with
  | cut token place => exact token
  | failed fails whole => cases proper

theorem Found.calm {line : Nat} {cut : Token × Bytes} {t : Token} (found : Found false line cut t) :
    t.placeless = cut.1 ∧ t.line = line := by
  cases found with
  | cut token place => exact ⟨token, place⟩
  | failed fails whole => cases fails

structure Reads (failing : Bool) (line : Nat) (here : Bytes) (cut : Token × Bytes) (read : Token × Lexer) : Prop where
  token : Found failing line cut read.1
  later : read.1.kind.isLast = false → ∃ taken, here = taken ++ cut.2 ∧
    read.2.line = line + Bytes.newlines taken ∧ read.2.Ahead failing cut.2

variable {l : Lexer} {failing : Bool} {here : Bytes}

theorem quoted_reads (ahead : l.Ahead failing rest) (d : UInt8) :
    Reads failing l.line rest (cutQuoted d rest) (l.quoted d) := by
  have follows := Reader.run_follows (quoteStep d) false l.reader
  rw [ahead.same, ahead.view] at follows
  have stops := follows.cases_stop
  obtain ⟨taken, -, -, view, same⟩ := follows
  have parts := Reader.walk_parts (quoteStep d) false rest
  unfold quoted cutQuoted
  dsimp only
  rw [List.nil_append] at taken
  rw [taken]
  rcases stops with ⟨stop, fails, whole⟩ | stop
  · rw [stop]
    refine ⟨?_, nofun⟩
    dsimp only
    refine .failed fails ?_
    split <;> exact whole
  · rw [stop]
    cases ends : (Reader.walk (quoteStep d) false rest).stop with
    | failed => exact absurd ends (Reader.walk_ne_failed _ _ _)
    | left | ended => exact ⟨.cut rfl rfl, nofun⟩
    | last => exact ⟨.cut rfl rfl, fun _ => ⟨_, parts.symm, rfl, same, view, ahead.sound, ahead.started⟩⟩

theorem bare_reads (ahead : l.Ahead failing rest) (b : UInt8) :
    Reads failing l.line rest (cutBare b rest) (l.bare b) := by
  have follows := Reader.run_follows (fun _ b => if isBare b then .go () else .leave) () l.reader
  rw [ahead.same, ahead.view] at follows
  have stops := follows.cases_stop
  obtain ⟨taken, -, -, view, same⟩ := follows
  have all : ∀ c ∈ rest.takeWhile isBare, isBare c = true := fun c member => List.mem_takeWhile_imp member
  obtain ⟨front, never, back⟩ := Reader.walk_span isBare all (head_dropWhile isBare rest)
  rw [List.takeWhile_append_dropWhile] at front never back
  rw [List.nil_append, front] at taken
  rw [back] at view stops
  unfold bare Reader.span cutBare
  dsimp only
  rcases stops with ⟨stop, fails, whole⟩ | stop
  · simp only [stop]
    exact ⟨.failed fails whole, nofun⟩
  · cases ends : (Reader.run (fun _ b => if isBare b then .go () else .leave) () l.reader).stop with
    | failed => exact absurd (stop.symm.trans ends) never
    | last | left | ended =>
      dsimp only
      refine ⟨.cut (by rw [taken]; rfl) rfl, fun _ => ⟨_, List.takeWhile_append_dropWhile.symm, ?_, same, view,
        ahead.sound, ahead.started⟩⟩
      rw [Bytes.newlines_of_all all rfl]
      rfl

theorem Reads.cons {b : UInt8} {line : Nat} {c : Token × Bytes} {read : Token × Lexer}
    (reads : Reads failing line rest c read) (no_line : b ≠ Bytes.newline) :
    Reads failing line (b :: rest) c read := by
  refine ⟨reads.token, fun proper => ?_⟩
  obtain ⟨taken, rfl, lines, ahead⟩ := reads.later proper
  refine ⟨b :: taken, rfl, ?_, ahead⟩
  rw [lines, Bytes.newlines, Bytes.newlines, List.count_cons_of_ne no_line]

theorem atToken_reads (ahead : l.Ahead failing here) (solid : ∀ b ∈ here.head?, isSeparator b = false) :
    Reads failing l.line here (cutHere here) l.atToken := by
  cases here with
  | nil =>
    obtain ⟨r', seen, same, view⟩ := Reader.peek_nil ahead.view
    unfold atToken
    rw [ahead.same] at seen
    rw [seen]
    cases failing with
    | true => exact ⟨.failed rfl rfl, nofun⟩
    | false => exact ⟨.cut rfl rfl, nofun⟩
  | cons b rest =>
    obtain ⟨r', seen, same, view, more⟩ := Reader.peek_cons ahead.view
    have no_line : b ≠ Bytes.newline := by
      rintro rfl
      cases solid Bytes.newline rfl
    have past : Ahead { l with reader := r'.skip } failing rest :=
      ⟨same.trans ahead.same, more, ahead.sound, ahead.started⟩
    apply Reads.cons _ no_line
    unfold atToken
    rw [seen, cutHere]
    dsimp only
    split
    · exact ⟨.cut rfl rfl, fun _ => ⟨[], rfl, rfl, past⟩⟩
    · split
      · exact ⟨.cut rfl rfl, fun _ => ⟨[], rfl, rfl, past⟩⟩
      · split
        · exact quoted_reads past b
        · exact bare_reads past b

theorem afterMark_reads (ahead : l.Ahead failing text) :
    Reads failing (l.line + Bytes.newlines (text.takeWhile isSeparator)) (text.dropWhile isSeparator) (cut text)
      l.afterMark := by
  have follows := Reader.run_follows (fun _ b => if isSeparator b then .go () else .leave) () l.reader
  rw [ahead.same, ahead.view] at follows
  obtain ⟨taken, -, -, view, same⟩ := follows
  have all : ∀ c ∈ text.takeWhile isSeparator, isSeparator c = true := fun c member =>
    List.mem_takeWhile_imp member
  obtain ⟨front, -, back⟩ := Reader.walk_span isSeparator all (head_dropWhile isSeparator text)
  rw [List.takeWhile_append_dropWhile] at front back
  rw [List.nil_append, front] at taken
  rw [back] at view
  rw [← taken]
  exact atToken_reads (l := { l with reader := _, line := _ }) ⟨same, view, ahead.sound, ahead.started⟩
    (head_dropWhile isSeparator text)

theorem not_faulty {k : Kind} (proper : k.isLast = false) : decide (k = .faulty) = false := by
  cases k <;> first | rfl | cases proper

theorem next_reads (ahead : l.Ahead failing text) :
    Reads failing (l.line + Bytes.newlines (text.takeWhile isSeparator)) (text.dropWhile isSeparator) (cut text)
      l.next := by
  obtain ⟨token, later⟩ := afterMark_reads ahead
  rw [next, if_neg (Bool.eq_false_iff.mp ahead.sound), scan, if_pos ahead.started]
  refine ⟨token, fun proper => ?_⟩
  obtain ⟨taken, parts, lines, past⟩ := later proper
  exact ⟨taken, parts, lines, past.same, past.view, not_faulty proper, past.started⟩

theorem next_cut (past : l.Past text) :
    l.next.1.placeless = (cut text).1 ∧ (l.next.1.kind.isLast = false → l.next.2.Past (cut text).2) := by
  have here : l.Ahead false text := ⟨past.calm, past.view, past.sound, past.started⟩
  obtain ⟨token, later⟩ := next_reads here
  refine ⟨token.calm.1, fun proper => ?_⟩
  obtain ⟨taken, -, -, ahead⟩ := later proper
  exact ⟨ahead.same, ahead.view, ahead.sound, ahead.started⟩

theorem scans_tokens (past : l.Past text) :
    ∃ rest, Scans text (l.tokens.1.map Token.placeless) rest ∧ (cut rest).1 = l.tokens.2.1.placeless := by
  fun_induction tokens l generalizing text with
  | case1 l last => exact ⟨text, .nil, (next_cut past).1.symm⟩
  | case2 l more ts stop e rest ih =>
    obtain ⟨token, later⟩ := next_cut past
    have proper := Bool.eq_false_iff.mpr more
    obtain ⟨left, scans, last⟩ := ih (later proper)
    rw [rest] at scans last
    have front : cut text = (l.next.1.placeless, (cut text).2) := by rw [token]
    exact ⟨left, .cons front proper scans, last⟩

def behindMark (r : Reader) : Lexer := ⟨(r.run markStep Bytes.mark).reader, 1, true, false⟩

theorem next_behindMark {r : Reader} (sound : (r.run markStep Bytes.mark).stop ≠ .failed) :
    (ofReader r).next = (behindMark r).next := by
  cases stop : (r.run markStep Bytes.mark).stop with
  | failed => exact absurd stop sound
  | last | left | ended => simp [Lexer.next, scan, ofReader, behindMark, stop]

theorem tokens_behindMark {r : Reader} (sound : (r.run markStep Bytes.mark).stop ≠ .failed) :
    (ofReader r).tokens = (behindMark r).tokens := by
  rw [tokens, next_behindMark sound]
  exact (tokens.eq_def (behindMark r)).symm

theorem mark_of_calm {f : Feed} (calm : f.failing = false) :
    ((Reader.ofFeed f).run markStep Bytes.mark).stop ≠ .failed := by
  rw [(Reader.run_goes (r := .ofFeed f) markStep Bytes.mark calm).stop]
  exact Reader.walk_ne_failed _ _ _

theorem tokens_of_feed {f : Feed} (calm : f.failing = false) :
    ∃ l : Lexer, l.Past (unmarked f.rest) ∧ (ofReader (.ofFeed f)).tokens = l.tokens := by
  have goes := Reader.run_goes (r := .ofFeed f) markStep Bytes.mark calm
  exact ⟨behindMark (.ofFeed f), ⟨goes.calm, goes.view, rfl, rfl⟩, tokens_behindMark (mark_of_calm calm)⟩

theorem lexes_tokens {f : Feed} (calm : f.failing = false)
    (ended : (ofReader (.ofFeed f)).tokens.2.1.kind = .ended) :
    Lexes (unmarked f.rest) ((ofReader (.ofFeed f)).tokens.1.map Token.placeless) := by
  obtain ⟨l, past, same⟩ := tokens_of_feed calm
  obtain ⟨rest, scans, last⟩ := scans_tokens past
  rw [same] at ended ⊢
  exact ⟨rest, scans, blank_of_ended (by rw [last]; exact ended)⟩

theorem tokens_of_lexes {f : Feed} (calm : f.failing = false) (lexes : Lexes (unmarked f.rest) ts) :
    (ofReader (.ofFeed f)).tokens.1.map Token.placeless = ts ∧
      (ofReader (.ofFeed f)).tokens.2.1.kind = .ended := by
  obtain ⟨l, past, same⟩ := tokens_of_feed calm
  obtain ⟨rest, scans, last⟩ := scans_tokens past
  rw [same]
  obtain ⟨vs, rfl, gap, more, blank⟩ := scans.split lexes
  -- behind the last token there is none
  cases more with
  | nil =>
    have ended := cut_of_blank blank
    rw [last] at ended
    exact ⟨(List.append_nil _).symm, ended⟩
  | cons front proper later =>
    have stop := last_tokens l
    have only : (cut rest).1.kind.isLast = true := by rw [last]; exact stop
    rw [front, proper] at only
    cases only

end Lexer

theorem step_placeless {s s' : State} {t : Token} : step s t.placeless = .ok s' ↔ step s t = .ok s' := by
  obtain ⟨c, mode⟩ := s
  obtain ⟨kind, text, line⟩ := t
  cases mode with
  | at_ p | skipping d p => rfl
  | opening p => cases kind <;> simp [step, stepOpening, Token.placeless]
  | value f p => cases f <;> cases kind <;> simp [step, stepValue, Token.placeless]

theorem run_cons {s s' : State} {t : Token} {ts : List Token} :
    run s (t :: ts) = .ok s' ↔ ∃ m, step s t = .ok m ∧ run m ts = .ok s' := by
  rw [run]
  cases step s t <;> simp

theorem run_append {s s' : State} {ts us : List Token} :
    run s (ts ++ us) = .ok s' ↔ ∃ m, run s ts = .ok m ∧ run m us = .ok s' := by
  induction ts generalizing s with
  | nil => simp [run]
  | cons t ts ih =>
    rw [List.cons_append, run_cons]
    simp only [ih, run_cons]
    constructor
    · rintro ⟨n, first, m, front, back⟩
      exact ⟨m, ⟨n, first, front⟩, back⟩
    · rintro ⟨m, ⟨n, first, front⟩, back⟩
      exact ⟨n, first, m, front, back⟩

theorem run_placeless {s s' : State} {ts : List Token} :
    run s (ts.map Token.placeless) = .ok s' ↔ run s ts = .ok s' := by
  induction ts generalizing s with
  | nil => rfl
  | cons t ts ih => simp only [List.map_cons, run_cons, step_placeless, ih]

theorem finish_ended {s : State} {last : Token} {c : Catalog} (ended : last.kind = .ended) :
    finish s last = .ok c ↔ s = ⟨c, .at_ .top⟩ := by
  obtain ⟨c', mode⟩ := s
  cases mode with
  | at_ p => cases p <;> simp [finish, ended]
  | opening p => simp [finish, stepOpening, ended, Except.map]
  | value f p => cases f <;> simp [finish, stepValue, ended, Except.map]
  | skipping d p => simp [finish]

theorem read_ended {ts : List Token} {last : Token} {c : Catalog} (ended : last.kind = .ended) :
    read ts last = .ok c ↔ run .start ts = .ok ⟨c, .at_ .top⟩ := by
  unfold read
  cases through : run .start ts with
  | error e => simp
  | ok s =>
    rw [Except.ok.injEq, ← finish_ended ended]
    cases finished : finish s last <;> simp [finished]

theorem parse_iff {f : Feed} (calm : f.failing = false) {c : Catalog} {x : Bytes} :
    parse f = .ok (c, x) ↔ x = Sha1.digest f.rest ∧ ∃ ts written, Lexer.Lexes (Lexer.unmarked f.rest) ts ∧
      run .start ts = .ok ⟨written, .at_ .top⟩ ∧ written.normalize = c := by
  rw [parse_ok_iff]
  refine and_congr_right fun _ => ?_
  constructor
  · rintro ⟨written, complete, normal⟩
    have ended := kind_of_read (Lexer.last_tokens _) complete
    exact ⟨_, written, Lexer.lexes_tokens calm ended, run_placeless.mpr ((read_ended ended).mp complete), normal⟩
  · rintro ⟨ts, written, lexes, through, normal⟩
    obtain ⟨rfl, ended⟩ := Lexer.tokens_of_lexes calm lexes
    exact ⟨written, (read_ended ended).mpr (run_placeless.mp through), normal⟩

/-- One separator or more. -/
structure Spaces (gap : Bytes) : Prop where
  some_ : gap ≠ []
  blank : ∀ b ∈ gap, Lexer.isSeparator b = true

theorem Spaces.apart {gap : Bytes} (spaces : Spaces gap) (rest : Bytes) :
    ∀ b ∈ (gap ++ rest).head?, Lexer.isBare b = false := by
  obtain ⟨b, more, rfl⟩ := List.exists_cons_of_ne_nil spaces.some_
  rintro c ⟨⟩
  have separates := spaces.blank b List.mem_cons_self
  simp [Lexer.isBare, separates]

def After (front : Bytes) (ts : List Token) (back : Bytes) : Prop :=
  ∃ gap, (∀ b ∈ gap, Lexer.isSeparator b = true) ∧
    Lexer.Scans (Lexer.unmarked (front ++ back)) ts (gap ++ back)

variable {front back tail : Bytes} {ts us : List Token}

theorem unmarked_elsewhere {u : Bytes} (some_ : u ≠ []) (here : Lexer.unmarked (front ++ back) = u ++ back)
    (tail : Bytes) : Lexer.unmarked (front ++ tail) = u ++ tail := by
  rw [Lexer.unmarked, Reader.walk_elsewhere here (.inl some_) tail]

theorem After.elsewhere (after : After front ts back) (some_ : ts ≠ [])
    (apart : ∀ b ∈ tail.head?, Lexer.isBare b = false) : After front ts tail := by
  obtain ⟨gap, blank, scans⟩ := after
  obtain ⟨u, whole⟩ := (List.suffix_append gap back).trans scans.suffix
  rw [← whole] at scans
  have solid : u ≠ [] := by
    rintro rfl
    have shorter := scans.length some_
    rw [List.nil_append, List.length_append] at shorter
    omega
  refine ⟨gap, blank, ?_⟩
  rw [unmarked_elsewhere solid whole.symm]
  exact scans.elsewhere apart

theorem parse_insert {f f' : Feed} {gap gap' ins : Bytes} {its : List Token} {c : Catalog} {x : Bytes}
    (calm : f.failing = false) (calm' : f'.failing = false) (text : f.rest = front ++ back)
    (text' : f'.rest = front ++ (gap ++ ins ++ gap') ++ back) (spaces : Spaces gap) (spaces' : Spaces gap')
    (after : After front ts back) (some_ : ts ≠ []) (lexes : Lexer.Lexes ins its)
    (neutral : ∀ s, run .start ts = .ok s → run s its = .ok s) (parsed : parse f = .ok (c, x)) :
    parse f' = .ok (c, Sha1.digest f'.rest) := by
  obtain ⟨-, all, written, whole, through, normal⟩ := (parse_iff calm).mp parsed
  obtain ⟨left, blank, scans⟩ := after
  rw [text] at whole
  obtain ⟨us, rfl, later⟩ := scans.split whole
  obtain ⟨s, first, second⟩ := run_append.mp through
  rw [Lexer.lexes_gap blank] at later
  have tail : f'.rest = front ++ (gap ++ (ins ++ (gap' ++ back))) := by
    rw [text']
    simp only [List.append_assoc]
  obtain ⟨left', blank', scans'⟩ : After front ts (gap ++ (ins ++ (gap' ++ back))) :=
    After.elsewhere ⟨left, blank, scans⟩ some_ (spaces.apart _)
  have inserted : Lexer.Lexes (ins ++ (gap' ++ back)) (its ++ us) :=
    lexes.append ((Lexer.lexes_gap spaces'.blank).mpr later) (spaces'.apart back)
  have rest := (Lexer.lexes_gap blank').mpr ((Lexer.lexes_gap spaces.blank).mpr inserted)
  refine (parse_iff calm').mpr ⟨rfl, ts ++ (its ++ us), written, ?_, ?_, normal⟩
  · rw [tail]
    exact scans'.lexes rest
  · exact run_append.mpr ⟨s, first, run_append.mpr ⟨s, neutral s first, second⟩⟩

end Clr
end RomLedger
