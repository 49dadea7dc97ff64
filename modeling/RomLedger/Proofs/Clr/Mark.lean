import RomLedger.Proofs.Bytes.Utf8
import RomLedger.Proofs.Clr.Lines
import RomLedger.Proofs.Clr.Portions
import RomLedger.Proofs.Clr.Printing

/-!
What is dropped in front of a text. The lexer takes as much of the mark as there is, so it takes the first
byte or two of a text that begins with another character of the same block, too. What is read then differs
from what is read of the whole text, unless that character is itself broken off behind its second byte.
-/
namespace RomLedger

namespace Utf8

theorem first_ef : first 0xEF = .inr ⟨[0xEF], 2, 0x80, 0xBF, 0xF⟩ := by decide

theorem shown_ef (rest : Bytes) : shown none (0xEF :: rest) = shown (some ⟨[0xEF], 2, 0x80, 0xBF, 0xF⟩) rest := by
  rw [shown, cutFrom, first_ef]
  rfl

theorem shown_second {b : UInt8} (continues : Continues b) (rest : Bytes) :
    shown (some ⟨[0xEF], 2, 0x80, 0xBF, 0xF⟩) (b :: rest) =
      shown (some ⟨[b, 0xEF], 1, 0x80, 0xBF, 0x3C0 + (b.toNat - 0x80)⟩) rest :=
  (shown_open (o := ⟨[0xEF], 2, 0x80, 0xBF, 0xF⟩) continues.1 continues.2 rest).trans (if_neg (by decide))

theorem shown_third {read : Bytes} {bits : Nat} {b : UInt8} (continues : Continues b) (rest : Bytes) :
    shown (some ⟨read, 1, 0x80, 0xBF, bits⟩) (b :: rest) =
      Char.ofNat (64 * bits + (b.toNat - 0x80)) :: shown none rest :=
  (shown_open (o := ⟨read, 1, 0x80, 0xBF, bits⟩) continues.1 continues.2 rest).trans (if_pos rfl)

theorem shown_without_ef (b : Bytes) : shown none (0xEF :: b) = shown none b ↔
    ∃ y rest, b = y :: rest ∧ Continues y ∧ ∀ z ∈ rest.head?, ¬Continues z := by
  rw [shown_ef]
  by_cases goes : ∃ y rest, b = y :: rest ∧ Continues y
  · obtain ⟨y, rest, rfl, continues⟩ := goes
    rw [shown_second continues, shown_continues continues]
    by_cases more : ∃ z left, rest = z :: left ∧ Continues z
    · obtain ⟨z, left, rfl, further⟩ := more
      rw [shown_third further, shown_continues further]
      refine iff_of_false (fun same => List.cons_ne_self _ _ (List.cons.inj same).2.symm) ?_
      rintro ⟨_, _, ⟨⟩, -, stops⟩
      exact stops z rfl further
    · have stuck : ∀ z ∈ rest.head?, ¬Continues z := by
        intro z front continues
        obtain ⟨left, rfl⟩ := List.head?_eq_some_iff.mp front
        exact more ⟨z, left, rfl, continues⟩
      refine iff_of_true ?_ ⟨y, rest, rfl, continues, stuck⟩
      exact shown_stuck stuck
  · have stuck : ∀ y ∈ b.head?, ¬Continues y := by
      intro y front continues
      obtain ⟨rest, rfl⟩ := List.head?_eq_some_iff.mp front
      exact goes ⟨y, rest, rfl, continues⟩
    rw [shown_stuck stuck]
    refine iff_of_false (List.cons_ne_self _ _) ?_
    rintro ⟨y, rest, rfl, continues, -⟩
    exact goes ⟨y, rest, rfl, continues⟩

theorem shown_without_bb (b : Bytes) : shown none (0xEF :: 0xBB :: b) ≠ shown none b := by
  have second : Continues 0xBB := by decide
  rw [shown_ef, shown_second second]
  cases b with
  | nil => exact List.cons_ne_nil _ _
  | cons y rest =>
    by_cases continues : Continues y
    · rw [shown_third continues, shown_continues continues]
      intro same
      have char : Char.ofNat (0xFEC0 + (y.toNat - 0x80)) = Char.ofNat 0xFFFD := (List.cons.inj same).1
      have high : y.toNat ≤ 0xBF := UInt8.le_iff_toNat_le.mp continues.2
      -- the characters that begin as the mark does end before the replacement character
      have value := congrArg Char.toNat char
      rw [Char.toNat_ofNat, Char.toNat_ofNat, if_pos (.inr (by omega)), if_pos (.inr (by omega))] at value
      omega
    · rw [shown_stuck (by rintro _ ⟨⟩; exact continues)]
      exact List.cons_ne_self _ _

end Utf8

namespace Clr

namespace Lexer

/-- A lexer that has a text before it and drops nothing of it. -/
def scanning (text : Bytes) : Lexer := ⟨.inMemory text, 1, true, false⟩

def stream (l : Lexer) : List Token := l.tokens.1 ++ [l.tokens.2.1]

variable {l l' : Lexer} {text : Bytes}

theorem ahead_scanning (text : Bytes) : (scanning text).Ahead false text :=
  ⟨rfl, List.append_nil text, rfl, rfl⟩

theorem stream_of_proper (proper : l.next.1.kind.isLast = false) : stream l = l.next.1 :: stream l.next.2 := by
  rw [stream, tokens, dif_neg (Bool.eq_false_iff.mp proper)]
  rfl

theorem head_stream (l : Lexer) : (stream l).head? = some l.next.1 := by
  rw [stream, tokens]
  split <;> rfl

theorem Ahead.stream_eq (ahead : l.Ahead false text) (ahead' : l'.Ahead false text) (line : l.line = l'.line) :
    stream l = stream l' := by
  have alike : l.Alike l' :=
    ⟨⟨ahead.same, ahead'.same, ahead.view.trans ahead'.view.symm⟩, line, ahead.started.trans ahead'.started.symm,
      ahead.sound.trans ahead'.sound.symm⟩
  obtain ⟨front, last, -⟩ := tokens_alike alike
  rw [stream, stream, front, last]

theorem cut_of_bare {b : UInt8} (bare : isBare b = true) (undelimited : isDelimiter b = false) (text : Bytes) :
    cut (b :: text) = cutBare b text := by
  obtain ⟨solid, unopened, unclosed⟩ := isSeparator_of_isBare bare
  rw [cut_of_solid solid, cutHere, if_neg (Bool.eq_false_iff.mp unopened), if_neg (Bool.eq_false_iff.mp unclosed),
    if_neg (Bool.eq_false_iff.mp undelimited)]

def firstWord (bytes : Bytes) : Token := ⟨classify (Utf8.lossy bytes), Utf8.lossy bytes, 1⟩

theorem stream_word {b : UInt8} (bare : isBare b = true) (undelimited : isDelimiter b = false) (text : Bytes) :
    stream (scanning (b :: text)) =
      firstWord (b :: text.takeWhile isBare) :: stream (scanning (text.dropWhile isBare)) := by
  obtain ⟨solid, -, -⟩ := isSeparator_of_isBare bare
  have reads := next_reads (ahead_scanning (b :: text))
  rw [cut_of_bare bare undelimited, List.takeWhile_cons_of_neg (Bool.eq_false_iff.mp solid),
    List.dropWhile_cons_of_neg (Bool.eq_false_iff.mp solid)] at reads
  obtain ⟨token, later⟩ := reads
  have first : (scanning (b :: text)).next.1 = firstWord (b :: text.takeWhile isBare) :=
    token_of_placeless token.calm.1 token.calm.2
  have proper : (scanning (b :: text)).next.1.kind.isLast = false := by
    rw [first]
    exact classify_isLast _
  obtain ⟨taken, parts, lines, ahead⟩ := later proper
  have all : ∀ c ∈ taken, isBare c = true := by
    have whole : b :: text.takeWhile isBare ++ text.dropWhile isBare = taken ++ text.dropWhile isBare := by
      rw [List.cons_append, List.takeWhile_append_dropWhile]
      exact parts
    rw [← List.append_cancel_right whole]
    exact List.forall_mem_cons.mpr ⟨bare, fun c member => List.mem_takeWhile_imp member⟩
  rw [Bytes.newlines_of_all all rfl] at lines
  rw [stream_of_proper proper, first, ahead.stream_eq (ahead_scanning _) lines]
  rfl

theorem not_spelt_of_delimiter {d : UInt8} (delimits : isDelimiter d = true) (text : Bytes) :
    (scanning (d :: text)).next.1.kind.isSpelt = false := by
  obtain ⟨solid, unopened, unclosed⟩ := isSeparator_of_isDelimiter delimits
  have reads := next_reads (ahead_scanning (d :: text))
  rw [cut_of_solid solid, cutHere, if_neg (Bool.eq_false_iff.mp unopened),
    if_neg (Bool.eq_false_iff.mp unclosed), if_pos delimits] at reads
  have kind : (scanning (d :: text)).next.1.kind = (cutQuoted d text).1.kind :=
    (congrArg Token.kind reads.token.calm.1.symm).symm
  rw [kind]
  unfold cutQuoted
  dsimp only
  split <;> rfl

theorem bare_of_wide {b : UInt8} (wide : 0x80 ≤ b) : isBare b = true ∧ isDelimiter b = false := by
  have apart (c : UInt8) (small : c < 0x80) : (b == c) = false :=
    beq_false_of_ne fun same => absurd (same ▸ wide) (UInt8.not_le.mpr small)
  simp [isBare, isSeparator, Bytes.isBlank, isDelimiter, equals, openParen, closeParen, apart]

theorem stream_without {m : Bytes} (some_ : m ≠ []) (wide : ∀ b ∈ m, 0x80 ≤ b) (text : Bytes) :
    stream (scanning (m ++ text)) = stream (scanning text) ↔
      (∃ y ∈ text.head?, isBare y = true ∧ isDelimiter y = false) ∧
        Utf8.lossy (m ++ text.takeWhile isBare) = Utf8.lossy (text.takeWhile isBare) := by
  obtain ⟨e, es, rfl⟩ := List.exists_cons_of_ne_nil some_
  have front : stream (scanning (e :: es ++ text)) =
      firstWord (e :: es ++ text.takeWhile isBare) :: stream (scanning (text.dropWhile isBare)) := by
    obtain ⟨first, later⟩ := List.forall_mem_cons.mp wide
    have word := stream_word (bare_of_wide first).1 (bare_of_wide first).2 (es ++ text)
    have more : ∀ c ∈ es, isBare c = true := fun c member => (bare_of_wide (later c member)).1
    rw [List.takeWhile_append_of_pos more, List.dropWhile_append_of_pos more] at word
    exact word
  cases text with
  | nil =>
    rw [front]
    refine iff_of_false (List.cons_ne_self _ _) ?_
    rintro ⟨⟨y, ⟨⟩, -⟩, -⟩
  | cons y rest =>
    by_cases word : isBare y = true
    · by_cases delimits : isDelimiter y = true
      · -- the text alone begins with a string, where the bytes in front make a word of it
        refine iff_of_false (fun same => ?_) ?_
        · have heads := congrArg List.head? same
          rw [front, head_stream, List.head?_cons, Option.some.injEq] at heads
          have spelt : (firstWord (e :: es ++ (y :: rest).takeWhile isBare)).kind.isSpelt = true :=
            isSpelt_classify _
          rw [heads, not_spelt_of_delimiter delimits rest] at spelt
          cases spelt
        · rintro ⟨⟨_, ⟨⟩, -, undelimits⟩, -⟩
          rw [delimits] at undelimits
          cases undelimits
      · have undelimits := Bool.eq_false_iff.mpr delimits
        rw [front, stream_word word undelimits, List.takeWhile_cons_of_pos word, List.dropWhile_cons_of_pos word]
        constructor
        · intro same
          exact ⟨⟨y, rfl, word, undelimits⟩, congrArg Token.text (List.cons.inj same).1⟩
        · rintro ⟨-, same⟩
          rw [firstWord, same]
          rfl
    · rw [front, List.dropWhile_cons_of_neg word]
      refine iff_of_false (List.cons_ne_self _ _) ?_
      rintro ⟨⟨_, ⟨⟩, bare, -⟩, -⟩
      exact word bare

theorem prefix_of_taken {mark text p : Bytes} (of_mark : p <+: mark) (of_text : p <+: text) :
    p <+: (Reader.walk markStep mark text).taken := by
  induction p generalizing mark text with
  | nil => exact List.nil_prefix
  | cons e p ih =>
    obtain ⟨es, rfl⟩ : ∃ es, mark = e :: es := by
      obtain ⟨more, rfl⟩ := of_mark
      exact ⟨p ++ more, rfl⟩
    obtain ⟨rest, rfl⟩ : ∃ rest, text = e :: rest := by
      obtain ⟨more, rfl⟩ := of_text
      exact ⟨p ++ more, rfl⟩
    rw [List.cons_prefix_cons] at of_mark of_text
    cases es with
    | nil =>
      obtain rfl := List.prefix_nil.mp of_mark.2
      simp [Reader.walk, markStep]
    | cons e' es => simpa [Reader.walk, markStep] using ih of_mark.2 of_text.2

def BreaksOff (text : Bytes) : Prop :=
  ∃ y rest, text = 0xEF :: y :: rest ∧ y ≠ 0xBB ∧ Utf8.Continues y ∧ ∀ z ∈ rest.head?, ¬Utf8.Continues z

/-- A text that begins as the mark does and goes on otherwise, but for such a character. -/
def Stray (text : Bytes) : Prop := text.head? = some 0xEF ∧ ¬Bytes.mark <+: text ∧ ¬BreaksOff text

inductive Dropped : Bytes → Bytes → Prop
  | none {text : Bytes} (other : text.head? ≠ some 0xEF) : Dropped text text
  | first {rest : Bytes} (other : rest.head? ≠ some 0xBB) : Dropped (0xEF :: rest) rest
  | second {rest : Bytes} (other : rest.head? ≠ some 0xBF) : Dropped (0xEF :: 0xBB :: rest) rest
  | mark {rest : Bytes} : Dropped (0xEF :: 0xBB :: 0xBF :: rest) rest

theorem dropped_unmarked (text : Bytes) : Dropped text (unmarked text) := by
  cases text with
  | nil => exact .none nofun
  | cons a text =>
    by_cases ef : a = 0xEF
    · subst ef
      cases text with
      | nil => exact .first nofun
      | cons b text =>
        by_cases bb : b = 0xBB
        · subst bb
          cases text with
          | nil => exact .second nofun
          | cons c text =>
            by_cases bf : c = 0xBF
            · subst bf
              exact .mark
            · have same : unmarked (0xEF :: 0xBB :: c :: text) = c :: text := by
                simp [unmarked, Reader.walk, markStep, Bytes.mark, bf]
              rw [same]
              exact .second (by simpa using bf)
        · have same : unmarked (0xEF :: b :: text) = b :: text := by
            simp [unmarked, Reader.walk, markStep, Bytes.mark, bb]
          rw [same]
          exact .first (by simpa using bb)
    · have same : unmarked (a :: text) = a :: text := by
        simp [unmarked, Reader.walk, markStep, Bytes.mark, ef]
      rw [same]
      exact .none (by simpa using ef)

theorem withoutMark_of_other {text : Bytes} (other : ¬Bytes.mark <+: text) : Bytes.withoutMark text = text := by
  unfold Bytes.withoutMark
  split
  · exact absurd (by simp [Bytes.mark]) other
  · rfl

theorem head_word {text : Bytes} {z : UInt8} :
    z ∈ (text.takeWhile isBare).head? ↔ z ∈ text.head? ∧ isBare z = true := by
  rw [List.head?_takeWhile, Option.mem_filter_iff]

theorem breaksOff_iff {rest : Bytes} (other : rest.head? ≠ some 0xBB) :
    BreaksOff (0xEF :: rest) ↔ ∃ y more, rest.takeWhile isBare = y :: more ∧ Utf8.Continues y ∧
      ∀ z ∈ more.head?, ¬Utf8.Continues z := by
  constructor
  · rintro ⟨y, more, parts, -, continues, stops⟩
    obtain rfl := (List.cons.inj parts).2
    refine ⟨y, more.takeWhile isBare, List.takeWhile_cons_of_pos (bare_of_wide continues.1).1, continues, ?_⟩
    intro z front
    exact stops z (head_word.mp front).1
  · rintro ⟨y, more, taken, continues, stops⟩
    cases rest with
    | nil => cases taken
    | cons c rest =>
      rw [List.takeWhile_cons] at taken
      split at taken
      · obtain ⟨rfl, rfl⟩ := List.cons.inj taken
        refine ⟨c, rest, rfl, fun same => other (congrArg some same), continues, fun z front further => ?_⟩
        exact stops z (head_word.mpr ⟨front, (bare_of_wide further.1).1⟩) further
      · cases taken

theorem stream_dropped {text rest : Bytes} (dropped : Dropped text rest) :
    stream (scanning rest) = stream (scanning (Bytes.withoutMark text)) ↔ ¬Stray text := by
  cases dropped with
  | none other =>
    have unmarked : ¬Bytes.mark <+: text := by
      rintro ⟨more, rfl⟩
      exact other rfl
    rw [withoutMark_of_other unmarked]
    exact iff_of_true rfl fun stray => other stray.1
  | first other =>
    have unmarked : ¬Bytes.mark <+: 0xEF :: rest := by
      rintro ⟨more, same⟩
      obtain rfl := (List.cons.inj same).2
      exact other rfl
    have stray : Stray (0xEF :: rest) ↔ ¬BreaksOff (0xEF :: rest) :=
      ⟨fun stray => stray.2.2, fun whole => ⟨rfl, unmarked, whole⟩⟩
    have without := stream_without (m := [0xEF]) (List.cons_ne_nil _ _) (by simp) rest
    rw [withoutMark_of_other unmarked, stray, not_not, breaksOff_iff other, eq_comm]
    refine without.trans ?_
    rw [Utf8.lossy_inj]
    refine (and_congr_right fun _ => Utf8.shown_without_ef (rest.takeWhile isBare)).trans ?_
    refine and_iff_right_of_imp ?_
    rintro ⟨y, more, taken, continues, -⟩
    obtain ⟨bare, undelimited⟩ := bare_of_wide continues.1
    have front : y ∈ (rest.takeWhile isBare).head? := by rw [taken]; rfl
    exact ⟨y, (head_word.mp front).1, bare, undelimited⟩
  | second other =>
    have unmarked : ¬Bytes.mark <+: 0xEF :: 0xBB :: rest := by
      rintro ⟨more, same⟩
      obtain rfl := (List.cons.inj (List.cons.inj same).2).2
      exact other rfl
    have whole : ¬BreaksOff (0xEF :: 0xBB :: rest) := by
      rintro ⟨y, more, same, apart, -⟩
      exact apart (List.cons.inj (List.cons.inj same).2).1.symm
    have without := stream_without (m := [0xEF, 0xBB]) (List.cons_ne_nil _ _) (by simp) rest
    rw [withoutMark_of_other unmarked, eq_comm]
    refine iff_of_false (fun same => ?_) (not_not.mpr ⟨rfl, unmarked, whole⟩)
    exact Utf8.shown_without_bb _ (Utf8.lossy_inj.mp (without.mp same).2)
  | mark =>
    refine iff_of_true rfl fun stray => stray.2.1 ?_
    exact ⟨rest, rfl⟩

/-- What is read of a text that comes in any portions: what is read, with nothing dropped, behind the longest part of
the mark that the text begins with. That is what is read of the text without a whole mark, with nothing else dropped,
exactly if the text is not a stray one. -/
theorem stream_of_feed {f : Feed} (calm : f.failing = false) :
    stream (ofReader (.ofFeed f)) = stream (scanning (unmarked f.rest)) ∧
      (∃ m, m <+: Bytes.mark ∧ f.rest = m ++ unmarked f.rest ∧
        ∀ p, p <+: Bytes.mark → p <+: f.rest → p <+: m) ∧
      (stream (ofReader (.ofFeed f)) = stream (scanning (Bytes.withoutMark f.rest)) ↔ ¬Stray f.rest) := by
  have behind : stream (ofReader (.ofFeed f)) = stream (scanning (unmarked f.rest)) := by
    have ahead := ahead_behindMark f
    rw [calm] at ahead
    rw [stream, tokens_behindMark (mark_of_calm calm)]
    exact ahead.stream_eq (ahead_scanning _) rfl
  refine ⟨behind, ⟨_, taken_of_mark Bytes.mark f.rest, (Reader.walk_parts ..).symm, ?_⟩, ?_⟩
  · exact fun p => prefix_of_taken
  rw [behind]
  exact stream_dropped (dropped_unmarked f.rest)

def wideText : Bytes := Bytes.ofString "\uff47ame"

theorem stray_wide :
    Stray wideText ∧ stream (ofReader (.ofFeed (.steady wideText (some 1) none))) =
      [⟨.bare, "\ufffd\ufffdame", 1⟩, ⟨.ended, "", 1⟩] ∧
      stream (ofReader (.ofFeed (.steady wideText (some 1) none))) ≠
        stream (scanning (Bytes.withoutMark wideText)) := by
  have stray : Stray wideText := by
    refine ⟨by decide +kernel, by decide +kernel, ?_⟩
    rintro ⟨y, rest, parts, -, -, stops⟩
    have bytes : wideText = [0xEF, 0xBD, 0x87, 0x61, 0x6D, 0x65] := by decide +kernel
    rw [bytes] at parts
    cases parts
    exact stops 0x87 rfl (by decide)
  have read := stream_of_feed (f := .steady wideText (some 1) none) rfl
  exact ⟨stray, by decide +kernel, fun same => read.2.2.mp same stray⟩

theorem first_byte_dropped :
    ¬Bytes.mark <+: wideText ∧ stream (ofReader (.ofFeed (.whole wideText))) ≠ stream (scanning wideText) := by
  decide +kernel

end Lexer
end Clr
end RomLedger
