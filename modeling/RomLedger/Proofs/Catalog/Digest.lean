import RomLedger.Catalog.Source
import RomLedger.Proofs.Bytes.Sha1
import RomLedger.Proofs.Feed.View

/- The digest that comes with a catalog is the digest of its whole file. -/
namespace RomLedger

/-- The hasher as it will be when what is still to come has passed too. -/
def Meter.origin (m : Meter) : Sha1.Hasher := m.hasher.update m.feed.rest

/-- What no read changes about a meter. -/
def Meter.Kept {α : Type} (g : Meter → α) : Prop := ∀ want m, g (Meter.read want m).2 = g m

theorem Meter.kept_origin : Kept Meter.origin := by
  intro want m
  obtain ⟨feed, line, hasher⟩ := m
  by_cases empty : feed.rest.isEmpty
  · by_cases bad : feed.failing <;> simp_all [Meter.read, Feed.read, Meter.origin, Sha1.Hasher.update]
  · simp [Meter.read, Feed.read, Meter.origin, empty, ← Sha1.Hasher.update_append]

theorem Meter.kept_failing : Kept fun m => m.feed.failing := by
  intro want m
  obtain ⟨feed, line, hasher⟩ := m
  by_cases empty : feed.rest.isEmpty
  · by_cases bad : feed.failing <;> simp [Meter.read, Feed.read, empty, bad]
  · simp [Meter.read, Feed.read, empty]

/-- The feed has delivered everything, and there is no failure behind it. -/
structure Meter.Complete (m : Meter) : Prop where
  rest : m.feed.rest = []
  calm : m.feed.failing = false

theorem Meter.digest_of_rest {m : Meter} (used : m.feed.rest = []) : m.digest = m.origin.finish := by
  rw [Meter.digest, Meter.origin, used, Sha1.Hasher.update, List.foldl_nil]

section

variable {α : Type} {g : Meter → α}

namespace Reader

theorem kept_fill (kept : Meter.Kept g) (r : Reader) : g r.fill.2.meter = g r.meter := by
  obtain ⟨buffer, m⟩ := r
  cases buffer with
  | cons b rest => rfl
  | nil =>
    have same := kept capacity m
    unfold fill
    dsimp only
    split
    all_goals
      rename_i read
      rwa [read] at same

theorem kept_peek (kept : Meter.Kept g) (r : Reader) : g r.peek.2.meter = g r.meter := by
  rw [← kept_fill kept r]
  unfold peek
  split <;> simp_all

theorem kept_of_peek (kept : Meter.Kept g) {r r' : Reader} {p : Peek} (seen : r.peek = (p, r')) :
    g r'.meter = g r.meter := by
  have same := kept_peek kept r
  rwa [seen] at same

theorem kept_runFrom (kept : Meter.Kept g) {σ : Type} (step : σ → UInt8 → Step σ) (taken : Bytes) (s : σ)
    (r : Reader) : g (runFrom step taken s r).reader.meter = g r.meter := by
  fun_induction runFrom step taken s r with
  | case1 taken s r b r' seen s' _ ih => exact ih.trans (kept_of_peek kept seen :)
  | case2 taken s r b r' seen s' _ => exact (kept_of_peek kept seen :)
  | case3 taken s r b r' seen _ => exact kept_of_peek kept seen
  | case4 taken s r r' seen => exact kept_of_peek kept seen
  | case5 taken s r r' seen => exact kept_of_peek kept seen

theorem kept_run (kept : Meter.Kept g) {σ : Type} (step : σ → UInt8 → Step σ) (s : σ) (r : Reader) :
    g (r.run step s).reader.meter = g r.meter := kept_runFrom kept step [] s r

end Reader

end

namespace Reader

theorem complete_of_ended {r r' : Reader} (seen : r.peek = (.ended, r')) : r'.meter.Complete := by
  cases view : r.view with
  | nil =>
    obtain ⟨s, shown, same, left⟩ := peek_nil view
    cases fails : r.failing with
    | true =>
      rw [fails] at shown
      cases shown.symm.trans seen
    | false =>
      rw [fails] at shown same
      cases shown.symm.trans seen
      exact ⟨(List.append_eq_nil_iff.mp left).2, same⟩
  | cons b rest =>
    obtain ⟨s, shown, -⟩ := peek_cons view
    cases shown.symm.trans seen

theorem complete_of_drain {r : Reader} (sound : r.drain.stop ≠ .failed) : r.drain.reader.meter.Complete := by
  obtain ⟨-, stop, -, view, same⟩ := drain_follows r
  refine ⟨(List.append_eq_nil_iff.mp view).2, ?_⟩
  cases fails : r.failing with
  | true =>
    rw [fails] at stop
    exact absurd stop sound
  | false => exact same.trans fails

end Reader

namespace Clr

namespace Lexer

section

variable {α : Type} {g : Meter → α}

theorem kept_quoted (kept : Meter.Kept g) (d : UInt8) (l : Lexer) :
    g (l.quoted d).2.reader.meter = g l.reader.meter := by
  unfold quoted
  dsimp only
  split <;> exact Reader.kept_run kept ..

theorem kept_bare (kept : Meter.Kept g) (b : UInt8) (l : Lexer) :
    g (l.bare b).2.reader.meter = g l.reader.meter := by
  unfold bare Reader.span
  dsimp only
  split <;> exact Reader.kept_run kept ..

theorem kept_atToken (kept : Meter.Kept g) (l : Lexer) : g l.atToken.2.reader.meter = g l.reader.meter := by
  unfold atToken
  split
  · rename_i seen
    exact Reader.kept_of_peek kept seen
  · rename_i seen
    exact Reader.kept_of_peek kept seen
  · rename_i b r seen
    have same : g r.skip.meter = g l.reader.meter := (Reader.kept_of_peek kept seen :)
    dsimp only
    split
    · exact same
    · split
      · exact same
      · split
        · exact (kept_quoted kept ..).trans same
        · exact (kept_bare kept ..).trans same

theorem kept_afterMark (kept : Meter.Kept g) (l : Lexer) : g l.afterMark.2.reader.meter = g l.reader.meter :=
  (kept_atToken kept _).trans (Reader.kept_run kept ..)

theorem kept_next (kept : Meter.Kept g) (l : Lexer) : g l.next.2.reader.meter = g l.reader.meter := by
  unfold next scan
  split
  · rfl
  · dsimp only
    split
    · exact kept_afterMark kept l
    · split
      · exact Reader.kept_run kept ..
      · exact (kept_afterMark kept _).trans (Reader.kept_run kept ..)

theorem kept_tokens (kept : Meter.Kept g) (l : Lexer) : g l.tokens.2.2.reader.meter = g l.reader.meter := by
  fun_induction tokens l with
  | case1 l last => exact kept_next kept l
  | case2 l more ts stop e rest ih =>
    rw [rest] at ih
    exact ih.trans (kept_next kept l)

end

theorem kind_classify (s : String) : classify s ≠ .ended := by
  unfold classify
  split <;> simp

theorem kind_quoted (d : UInt8) (l : Lexer) : (l.quoted d).1.kind ≠ .ended := by
  unfold quoted
  dsimp only
  split <;> simp

theorem kind_bare (b : UInt8) (l : Lexer) : (l.bare b).1.kind ≠ .ended := by
  unfold bare
  dsimp only
  split
  · simp
  · exact kind_classify _

theorem complete_of_atToken {l : Lexer} (ended : l.atToken.1.kind = .ended) :
    l.atToken.2.reader.meter.Complete := by
  unfold atToken at ended ⊢
  split at ended
  · simp at ended
  · rename_i seen
    exact Reader.complete_of_ended seen
  · dsimp only at ended
    split at ended
    · simp at ended
    · split at ended
      · simp at ended
      · split at ended
        · exact absurd ended (kind_quoted _ _)
        · exact absurd ended (kind_bare _ _)

theorem complete_of_next {l : Lexer} (ended : l.next.1.kind = .ended) : l.next.2.reader.meter.Complete := by
  unfold next scan at ended ⊢
  split at ended
  · simp at ended
  · rename_i sound
    rw [if_neg sound]
    dsimp only at ended ⊢
    split at ended
    · rename_i started
      rw [if_pos started]
      exact complete_of_atToken ended
    · rename_i fresh
      rw [if_neg fresh]
      split at ended
      · simp at ended
      · exact complete_of_atToken ended

theorem complete_of_tokens {l : Lexer} (ended : l.tokens.2.1.kind = .ended) :
    l.tokens.2.2.reader.meter.Complete := by
  fun_induction tokens l with
  | case1 l last => exact complete_of_next ended
  | case2 l more ts stop e rest ih =>
    rw [rest] at ih
    exact ih ended

theorem last_tokens (l : Lexer) : l.tokens.2.1.kind.isLast = true := by
  fun_induction tokens l with
  | case1 l last => exact last
  | case2 l more ts stop e rest ih =>
    rw [rest] at ih
    exact ih

end Lexer

theorem kind_of_finish {s : State} {t : Token} {c : Catalog} (last : t.kind.isLast = true)
    (complete : finish s t = .ok c) : t.kind = .ended := by
  have only : t.kind = .ended ∨ t.kind = .faulty := by
    unfold Kind.isLast at last
    split at last <;> simp_all
  refine only.resolve_right fun faulty => ?_
  unfold finish at complete
  split at complete
  · simp [stepOpening, faulty, Except.map] at complete
  · rename_i f p _
    cases f <;> simp [stepValue, faulty, Except.map] at complete
  · simp [faulty] at complete
  · simp at complete

theorem kind_of_read {ts : List Token} {last : Token} {c : Catalog} (stop : last.kind.isLast = true)
    (complete : read ts last = .ok c) : last.kind = .ended := by
  unfold read at complete
  split at complete
  · cases complete
  · split at complete
    · rename_i finished
      exact kind_of_finish stop finished
    · cases complete

theorem complete_of_parse {f : Feed} {c : Catalog} {digest : Bytes} (parsed : parse f = .ok (c, digest)) :
    digest = (Lexer.ofReader (.ofFeed f)).tokens.2.2.reader.meter.digest ∧
      (Lexer.ofReader (.ofFeed f)).tokens.2.2.reader.meter.Complete := by
  have stop := Lexer.last_tokens (.ofReader (.ofFeed f))
  unfold parse at parsed
  dsimp only at parsed
  split at parsed
  · rename_i read
    cases parsed
    exact ⟨rfl, Lexer.complete_of_tokens (kind_of_read stop read)⟩
  · cases parsed

theorem digest_of_parse {f : Feed} {c : Catalog} {digest : Bytes} (parsed : parse f = .ok (c, digest)) :
    digest = Sha1.digest f.rest := by
  have same := Lexer.kept_tokens Meter.kept_origin (.ofReader (.ofFeed f))
  obtain ⟨passed, complete⟩ := complete_of_parse parsed
  rw [passed, Meter.digest_of_rest complete.rest, ← Sha1.Hasher.finish_update f.rest]
  exact congrArg Sha1.Hasher.finish same

theorem calm_of_parse {f : Feed} {c : Catalog} {digest : Bytes} (parsed : parse f = .ok (c, digest)) :
    f.failing = false :=
  (Lexer.kept_tokens Meter.kept_failing (.ofReader (.ofFeed f))).symm.trans (complete_of_parse parsed).2.calm

theorem parse_eq (f : Feed) :
    parse f = (read (Lexer.ofReader (.ofFeed f)).tokens.1 (Lexer.ofReader (.ofFeed f)).tokens.2.1).map
      fun c => (c.normalize, Sha1.digest f.rest) := by
  cases complete : read (Lexer.ofReader (.ofFeed f)).tokens.1 (Lexer.ofReader (.ofFeed f)).tokens.2.1 with
  | error e => simp only [parse, complete, Except.map]
  | ok c =>
    have parsed : parse f = .ok (c.normalize, (Lexer.ofReader (.ofFeed f)).tokens.2.2.reader.meter.digest) := by
      simp only [parse, complete]
    rw [parsed, digest_of_parse parsed, Except.map]

theorem parse_ok_iff {f : Feed} {c : Catalog} {x : Bytes} :
    parse f = .ok (c, x) ↔ x = Sha1.digest f.rest ∧ ∃ written,
      read (Lexer.ofReader (.ofFeed f)).tokens.1 (Lexer.ofReader (.ofFeed f)).tokens.2.1 = .ok written ∧
        written.normalize = c := by
  rw [parse_eq]
  cases read (Lexer.ofReader (.ofFeed f)).tokens.1 (Lexer.ofReader (.ofFeed f)).tokens.2.1 with
  | error e =>
    constructor
    · nofun
    · rintro ⟨-, written, ⟨⟩, -⟩
  | ok written =>
    constructor
    · rintro ⟨⟩
      exact ⟨rfl, written, rfl, rfl⟩
    · rintro ⟨rfl, _, ⟨⟩, rfl⟩
      rfl

theorem parse_of_read {f : Feed} {c : Catalog}
    (complete : (read (Lexer.ofReader (.ofFeed f)).tokens.1 (Lexer.ofReader (.ofFeed f)).tokens.2.1).map
      Catalog.normalize = .ok c) : parse f = .ok (c, Sha1.digest f.rest) := by
  refine parse_ok_iff.mpr ⟨rfl, ?_⟩
  revert complete
  cases read (Lexer.ofReader (.ofFeed f)).tokens.1 (Lexer.ofReader (.ofFeed f)).tokens.2.1 with
  | error e => nofun
  | ok written => exact fun complete => ⟨written, rfl, Except.ok.inj complete⟩

end Clr

namespace Markup

namespace Scanner

theorem reader_startTag (s : Scanner) (b : Bytes) : (s.startTag b).2.reader = s.reader := by
  unfold startTag
  split <;> rfl

theorem reader_endTag (s : Scanner) (b : Bytes) : (s.endTag b).2.reader = s.reader := by
  unfold endTag
  generalize (if b.all isBlank then b else trimEnd b) = name
  dsimp only
  split
  · rfl
  · split <;> rfl

section

variable {α : Type} {g : Meter → α}

theorem kept_bangMarkup (kept : Meter.Kept g) (s : Scanner) :
    g s.bangMarkup.2.reader.meter = g s.reader.meter := by
  unfold bangMarkup
  split
  · rename_i seen
    exact Reader.kept_of_peek kept seen
  · rename_i seen
    exact Reader.kept_of_peek kept seen
  · rename_i seen
    rw [← Reader.kept_of_peek kept seen]
    split
    · exact Reader.kept_run kept ..
    · split
      · exact Reader.kept_run kept ..
      · split
        · exact Reader.kept_run kept ..
        · rfl

theorem kept_markup (kept : Meter.Kept g) (s : Scanner) :
    g s.markup.2.reader.meter = g s.reader.meter := by
  unfold markup
  dsimp only
  split
  · rename_i seen
    exact Reader.kept_of_peek kept seen
  · rename_i seen
    exact Reader.kept_of_peek kept seen
  · rename_i seen
    rw [← Reader.kept_of_peek kept seen]
    split
    · exact kept_bangMarkup kept _
    · split
      · split <;> exact Reader.kept_run kept ..
      · split
        · exact Reader.kept_run kept ..
        · split
          · rw [reader_endTag]
            exact Reader.kept_run kept ..
          · rw [reader_startTag]
            exact Reader.kept_run kept ..

theorem kept_text (kept : Meter.Kept g) (s : Scanner) :
    g s.text.2.reader.meter = g s.reader.meter := by
  unfold text
  dsimp only
  split
  · exact Reader.kept_run kept ..
  · split
    · exact (kept_markup kept _).trans (Reader.kept_run kept ..)
    · exact Reader.kept_run kept ..
  · exact Reader.kept_run kept ..

theorem kept_atOpening (kept : Meter.Kept g) (s : Scanner) :
    g s.atOpening.2.reader.meter = g s.reader.meter := by
  have same := Reader.kept_fill kept s.reader
  unfold atOpening
  split
  · rename_i filled
    rwa [filled] at same
  · rename_i filled
    rw [filled] at same
    exact (kept_text kept _).trans same

theorem kept_next (kept : Meter.Kept g) (s : Scanner) :
    g s.next.2.reader.meter = g s.reader.meter := by
  have same : g s.scan.2.reader.meter = g s.reader.meter := by
    unfold scan
    split
    · exact kept_atOpening kept s
    · exact kept_text kept s
    · exact kept_markup kept s
    · split <;> rfl
    · rfl
  unfold next
  split <;> simp_all

theorem kept_collect (kept : Meter.Kept g) (budget : Nat) (s : Scanner) :
    g (collect budget s).2.reader.meter = g s.reader.meter := by
  induction budget generalizing s with
  | zero => rfl
  | succ budget ih =>
    simp only [collect]
    split
    · exact kept_next kept s
    · exact (ih _).trans (kept_next kept s)

end

end Scanner

/-- A document that is read was read to its end, and its feed does not fail. -/
theorem complete_of_parse {f : Feed} {c : Catalog} {digest : Bytes} (parsed : parse f = .ok (c, digest)) :
    digest = (Scanner.ofReader (.ofFeed f)).pieces.2.reader.drain.reader.meter.digest ∧
      (Scanner.ofReader (.ofFeed f)).pieces.2.reader.drain.reader.meter.Complete := by
  unfold parse at parsed
  dsimp only at parsed
  split at parsed
  · cases parsed
  · split at parsed
    · cases parsed
    · rename_i sound
      cases parsed
      exact ⟨rfl, Reader.complete_of_drain sound⟩

theorem kept_parse {α : Type} {g : Meter → α} (kept : Meter.Kept g) (f : Feed) :
    g (Scanner.ofReader (.ofFeed f)).pieces.2.reader.drain.reader.meter = g (.ofFeed f) :=
  (Reader.kept_run kept ..).trans (Scanner.kept_collect kept ..)

/-- In whatever portions a document comes, its digest is that of all of it. -/
theorem digest_of_parse {f : Feed} {c : Catalog} {digest : Bytes} (parsed : parse f = .ok (c, digest)) :
    digest = Sha1.digest f.rest := by
  obtain ⟨passed, complete⟩ := complete_of_parse parsed
  rw [passed, Meter.digest_of_rest complete.rest, ← Sha1.Hasher.finish_update f.rest]
  exact congrArg Sha1.Hasher.finish (kept_parse Meter.kept_origin f)

theorem calm_of_parse {f : Feed} {c : Catalog} {digest : Bytes} (parsed : parse f = .ok (c, digest)) :
    f.failing = false :=
  (kept_parse Meter.kept_failing f).symm.trans (complete_of_parse parsed).2.calm

end Markup

namespace Source

theorem ok_of_mapError {α ε ε' : Type} {f : ε → ε'} {r : Except ε α} {a : α}
    (held : r.mapError f = .ok a) : r = .ok a := by
  cases r with
  | error e => cases held
  | ok found => exact congrArg Except.ok (Except.ok.inj held)

/-- A file that holds a catalog has it whatever its path, with the digest of its bytes. -/
theorem parse_ok {p : Path} {b : Bytes} {c : Catalog} {digest : Bytes}
    (parsed : parse p b = .ok (c, digest)) :
    digest = Sha1.digest b ∧ ∀ q, parse q b = .ok (c, digest) := by
  unfold parse at parsed ⊢
  split at parsed
  · rename_i markup
    have held := ok_of_mapError parsed
    refine ⟨Markup.digest_of_parse (f := .whole b) held, fun q => ?_⟩
    rw [if_pos markup, held]
    rfl
  · rename_i text
    have held := ok_of_mapError parsed
    refine ⟨Clr.digest_of_parse (f := .whole b) held, fun q => ?_⟩
    rw [if_neg text, held]
    rfl

variable {σ : Type}

theorem parseFile_ok {d : Disk σ} {p : Path} {c : Catalog} {digest : Bytes}
    (parsed : parseFile d p = .ok (c, digest)) :
    ∃ b, d.read p = .ok b ∧ digest = Sha1.digest b ∧ parse p b = .ok (c, digest) := by
  unfold parseFile at parsed
  split at parsed
  · cases parsed
  · rename_i b held
    exact ⟨b, held, (parse_ok parsed).1, parsed⟩

theorem parseFile_same {d : Disk σ} {p q : Path} {b : Bytes} {c c' : Catalog} {x x' : Bytes}
    (first : d.read p = .ok b) (second : d.read q = .ok b) (parsed : parseFile d p = .ok (c, x))
    (again : parseFile d q = .ok (c', x')) : c = c' := by
  simp only [parseFile, first, second] at parsed again
  have := (parse_ok parsed).2 q
  simp_all

end Source
end RomLedger
