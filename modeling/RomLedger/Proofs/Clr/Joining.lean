import RomLedger.Proofs.Clr.Scanning

/-!
Texts are read one behind the other as they are read alone. What a token does to the catalog is an edit: it
adds a game, sets the name or the description, or does nothing; and which edit that is depends on the place
that is read, but not on the catalog that was read before. So behind an accepted text, with a separator
between, another one adds its games and sets what its own headers set.
-/
namespace RomLedger.Clr

inductive Edit where
  | none
  | game (g : Game)
  | name (s : String)
  | description (s : String)
  deriving DecidableEq, Repr

namespace Edit

def apply (c : Catalog) : Edit → Catalog
  | .none => c
  | .game g => { c with games := c.games ++ [g] }
  | .name s => { c with name := s }
  | .description s => { c with description := s }

def isName : Edit → Bool
  | .name _ => true
  | _ => false

def isDescription : Edit → Bool
  | .description _ => true
  | _ => false

end Edit

def Mode.edit (t : Token) : Mode → Edit
  | .at_ (.game g) => if t.kind = .closeBrace then .game g else .none
  | .value .name .header => .name t.text
  | .value .description .header => .description t.text
  | _ => .none

def edits (m : Mode) : List Token → List Edit
  | [] => []
  | t :: ts =>
    match step ⟨.blank, m⟩ t with
    | .ok s => m.edit t :: edits s.mode ts
    | .error _ => []

/-- Whether a header among the tokens of a text sets the name of the catalog. -/
def setsName (ts : List Token) : Bool := (edits (.at_ .top) ts).any Edit.isName

def setsDescription (ts : List Token) : Bool := (edits (.at_ .top) ts).any Edit.isDescription

variable {c : Catalog} {m : Mode} {p : Place} {t : Token} {ts : List Token}

theorem close_eq (c : Catalog) (p : Place) (closes : t.kind = .closeBrace) :
    close c p = ⟨((Mode.at_ p).edit t).apply c, (close .blank p).mode⟩ := by
  cases p with
  | game g => simp only [close, Mode.edit, closes, ↓reduceIte, Edit.apply]
  | top | header | rom g r => rfl

theorem stepAt_eq (c : Catalog) (p : Place) (t : Token) :
    stepAt c p t = ⟨((Mode.at_ p).edit t).apply c, (stepAt .blank p t).mode⟩ := by
  by_cases closes : t.kind = .closeBrace
  · simp only [stepAt, closes]
    exact close_eq c p closes
  · have quiet : (Mode.at_ p).edit t = .none := by
      cases p with
      | game g => exact if_neg closes
      | top | header | rom g r => rfl
    rw [quiet, Edit.apply, stepAt, stepAt]
    cases kind : t.kind with
    | closeBrace => exact absurd kind closes
    | keyword k =>
      dsimp only
      cases p.field? k with
      | some f => rfl
      | none => cases p.block? k <;> rfl
    | openBrace | quoted | bare | ended | faulty => rfl

theorem setName_eq (c : Catalog) (p : Place) (t : Token) :
    setName c t.text p = ⟨((Mode.value .name p).edit t).apply c, (setName .blank t.text p).mode⟩ := by
  cases p <;> rfl

theorem setDescription_eq (c : Catalog) (p : Place) (t : Token) :
    setDescription c t.text p =
      ⟨((Mode.value .description p).edit t).apply c, (setDescription .blank t.text p).mode⟩ := by
  cases p <;> rfl

theorem setSize_eq (c : Catalog) (n : UInt64) (p : Place) : setSize c n p = ⟨c, (setSize .blank n p).mode⟩ := by
  cases p <;> rfl

theorem setHash_eq (c : Catalog) (h : HashField) (x : String) (p : Place) :
    setHash c h x p = ⟨c, (setHash .blank h x p).mode⟩ := by
  unfold setHash
  cases p <;> cases Coercion.hash h.digits x <;> rfl

theorem stepValue_eq (c : Catalog) (f : Field) (p : Place) (t : Token) :
    stepValue c f p t =
      (stepValue .blank f p t).map fun s => ⟨((Mode.value f p).edit t).apply c, s.mode⟩ := by
  cases f with
  | name =>
    rw [stepValue, stepValue, if_pos rfl, if_pos rfl, setName_eq]
    cases t.kind <;> rfl
  | description =>
    have other : Field.description ≠ .name := by decide
    rw [stepValue, stepValue, if_neg other, if_neg other, setDescription_eq]
    cases t.kind <;> rfl
  | size =>
    rw [stepValue, stepValue]
    cases t.kind with
    | quoted | bare =>
      dsimp only
      cases Coercion.size t.text with
      | error e => rfl
      | ok n => exact congrArg Except.ok (setSize_eq c n p)
    | openBrace | closeBrace | keyword k | ended | faulty => rfl
  | hash h =>
    rw [stepValue, stepValue]
    cases t.kind with
    | quoted | bare => exact congrArg Except.ok (setHash_eq c h t.text p)
    | openBrace | closeBrace | keyword k | ended | faulty => rfl

theorem step_eq (c : Catalog) (m : Mode) (t : Token) :
    step ⟨c, m⟩ t = (step ⟨.blank, m⟩ t).map fun s => ⟨(m.edit t).apply c, s.mode⟩ := by
  cases m with
  | at_ p => exact congrArg Except.ok (stepAt_eq c p t)
  | opening p =>
    simp only [step, stepOpening]
    cases t.kind <;> rfl
  | value f p => exact stepValue_eq c f p t
  | skipping d p =>
    simp only [step, stepSkipping]
    cases t.kind with
    | closeBrace => cases d <;> rfl
    | openBrace | keyword k | quoted | bare | ended | faulty => rfl

theorem run_eq (c : Catalog) (m : Mode) (ts : List Token) :
    run ⟨c, m⟩ ts = (run ⟨.blank, m⟩ ts).map fun s => ⟨(edits m ts).foldl Edit.apply c, s.mode⟩ := by
  induction ts generalizing c m with
  | nil => rfl
  | cons t ts ih =>
    rw [run, run, edits, step_eq]
    cases step ⟨.blank, m⟩ t with
    | error e => rfl
    | ok s =>
      obtain ⟨d, next⟩ := s
      simp only [Except.map, List.foldl_cons]
      rw [ih, ih d]
      cases run ⟨.blank, next⟩ ts <;> rfl

theorem edits_placeless (m : Mode) (ts : List Token) : edits m (ts.map Token.placeless) = edits m ts := by
  induction ts generalizing m with
  | nil => rfl
  | cons t ts ih =>
    have same : m.edit t.placeless = m.edit t := rfl
    rw [List.map_cons, edits, edits]
    cases taken : step ⟨.blank, m⟩ t with
    | ok s =>
      rw [step_placeless.mpr taken]
      dsimp only
      rw [ih, same]
    | error e =>
      cases elsewhere : step ⟨.blank, m⟩ t.placeless with
      | ok s => cases taken.symm.trans (step_placeless.mp elsewhere)
      | error e' => rfl

/-- A catalog behind another one, with the first one's name and description where the second sets none. -/
def joined (named described : Bool) (a b : Catalog) : Catalog where
  name := if named then b.name else a.name
  description := if described then b.description else a.description
  games := a.games ++ b.games
  software := a.software ++ b.software

theorem normalize_joined (named described : Bool) (a b : Catalog) :
    (joined named described a b).normalize = joined named described a.normalize b.normalize := by
  simp [joined, Catalog.normalize, apply_ite]

theorem foldl_apply (c : Catalog) (es : List Edit) :
    es.foldl Edit.apply c =
      joined (es.any Edit.isName) (es.any Edit.isDescription) c (es.foldl Edit.apply .blank) := by
  induction es using List.reverseRecOn with
  | nil => simp [joined, Catalog.blank]
  | append_singleton es e ih =>
    rw [List.foldl_append, List.foldl_append, ih]
    cases e <;> simp [joined, Edit.apply, Edit.isName, Edit.isDescription]

theorem run_joined {us : List Token} {a b : Catalog} (first : run .start ts = .ok ⟨a, .at_ .top⟩)
    (second : run .start us = .ok ⟨b, .at_ .top⟩) :
    run .start (ts ++ us) = .ok ⟨joined (setsName us) (setsDescription us) a b, .at_ .top⟩ := by
  have alone := run_eq .blank (.at_ .top) us
  have behind := run_eq a (.at_ .top) us
  rw [← State.start, second] at alone behind
  have made : b = (edits (.at_ .top) us).foldl Edit.apply .blank :=
    congrArg State.catalog (Except.ok.inj alone)
  refine run_append.mpr ⟨_, first, behind.trans ?_⟩
  rw [foldl_apply, ← made]
  rfl

namespace Lexer

theorem markStep_of_not_mem {es : Bytes} {b : UInt8} (other : b ∉ es) : markStep es b = .leave := by
  match es, other with
  | [], _ => rfl
  | [e], other | e :: _ :: _, other => simp_all [markStep]

theorem mem_of_markStep {es rest : Bytes} {b : UInt8} (goes : markStep es b = .go rest) :
    ∀ e ∈ rest, e ∈ es := by
  match es, goes with
  | [e], goes =>
    rw [markStep] at goes
    split at goes <;> cases goes
  | e :: f :: fs, goes =>
    simp only [markStep] at goes
    split at goes
    · cases goes
      exact fun _ member => List.mem_cons_of_mem e member
    · cases goes

theorem walk_markStep {es text tail : Bytes} (apart : ∀ b ∈ tail.head?, b ∉ es) :
    (Reader.walk markStep es (text ++ tail)).rest = (Reader.walk markStep es text).rest ++ tail := by
  induction text generalizing es with
  | nil =>
    cases tail with
    | nil => rfl
    | cons b tail => simp only [List.nil_append, Reader.walk, markStep_of_not_mem (apart b rfl)]
  | cons b text ih =>
    simp only [List.cons_append, Reader.walk]
    cases next : markStep es b with
    | go rest => exact ih fun c front member => apart c front (mem_of_markStep next c member)
    | last rest => rfl
    | leave => rfl

theorem lexes_joined {text tail : Bytes} {us : List Token} (first : Lexes (unmarked text) ts)
    (second : Lexes tail us) : Lexes (unmarked (text ++ Bytes.newline :: tail)) (ts ++ us) := by
  have apart : ∀ b ∈ (Bytes.newline :: tail).head?, b ∉ Bytes.mark := by
    rintro b ⟨⟩
    decide
  have whole : unmarked (text ++ Bytes.newline :: tail) = unmarked text ++ Bytes.newline :: tail :=
    walk_markStep apart
  have behind : Lexes ([Bytes.newline] ++ tail) us := by
    rw [lexes_gap]
    · exact second
    · intro b member
      rw [List.mem_singleton.mp member]
      rfl
  rw [whole]
  apply first.append behind
  rintro b ⟨⟩
  rfl

end Lexer

/-- Behind an accepted text and a line end, another accepted text is read as it is alone: its games come behind
those of the first, and its name and its description hold where its own headers set them. -/
theorem parse_joined {f g h : Feed} {a b : Catalog} {x y : Bytes} (calm : f.failing = false)
    (calm' : g.failing = false) (calm'' : h.failing = false)
    (text : h.rest = f.rest ++ Bytes.newline :: g.rest) (unmarked : g.rest.head? ≠ some 0xEF)
    (first : parse f = .ok (a, x)) (second : parse g = .ok (b, y)) :
    let us := (Lexer.ofReader (.ofFeed g)).tokens.1
    parse h = .ok (⟨if setsName us then b.name else a.name,
      if setsDescription us then b.description else a.description, a.games ++ b.games,
      a.software ++ b.software⟩, Sha1.digest h.rest) := by
  intro us
  obtain ⟨-, ts, written, lexes, through, rfl⟩ := (parse_iff calm).mp first
  obtain ⟨-, vs, written', lexes', through', rfl⟩ := (parse_iff calm').mp second
  obtain ⟨same, -⟩ := Lexer.tokens_of_lexes calm' lexes'
  have bare : Lexer.unmarked g.rest = g.rest := (Lexer.walk_mark unmarked).2
  rw [bare] at lexes'
  refine (parse_iff calm'').mpr ⟨rfl, ts ++ vs, _, ?_, run_joined through through', ?_⟩
  · rw [text]
    exact Lexer.lexes_joined lexes lexes'
  · rw [normalize_joined, ← same, setsName, setsDescription, edits_placeless]
    rfl

theorem parse_joined_headers :
    parse (.whole (Bytes.mark ++ Bytes.ofString "clrmamepro(name A description X)game(name g)end" ++
        Bytes.newline :: Bytes.ofString "game(name h rom(crc zz))clrmamepro(name B)")) =
      .ok (⟨"B", "X", [⟨"g", "", [], [], [], []⟩, ⟨"h", "", [], [], [], []⟩], []⟩,
        Sha1.digest (Bytes.mark ++ Bytes.ofString "clrmamepro(name A description X)game(name g)end" ++
          Bytes.newline :: Bytes.ofString "game(name h rom(crc zz))clrmamepro(name B)")) := by
  have first : parse (.whole (Bytes.mark ++ Bytes.ofString "clrmamepro(name A description X)game(name g)end")) =
      .ok (⟨"A", "X", [⟨"g", "", [], [], [], []⟩], []⟩,
        Sha1.digest (Bytes.mark ++ Bytes.ofString "clrmamepro(name A description X)game(name g)end")) :=
    parse_of_read (by decide +kernel)
  have second : parse (.whole (Bytes.ofString "game(name h rom(crc zz))clrmamepro(name B)")) =
      .ok (⟨"B", "", [⟨"h", "", [], [], [], []⟩], []⟩,
        Sha1.digest (Bytes.ofString "game(name h rom(crc zz))clrmamepro(name B)")) :=
    parse_of_read (by decide +kernel)
  have named : setsName (Lexer.ofReader (.ofFeed (.whole
      (Bytes.ofString "game(name h rom(crc zz))clrmamepro(name B)")))).tokens.1 = true := by
    decide +kernel
  have undescribed : setsDescription (Lexer.ofReader (.ofFeed (.whole
      (Bytes.ofString "game(name h rom(crc zz))clrmamepro(name B)")))).tokens.1 = false := by
    decide +kernel
  have both := parse_joined (h := .whole _) rfl rfl rfl rfl (by decide +kernel) first second
  dsimp only at both
  rw [named, undescribed] at both
  exact both

end RomLedger.Clr
