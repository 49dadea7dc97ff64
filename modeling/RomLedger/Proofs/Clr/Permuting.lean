import RomLedger.Proofs.Catalog.Records
import RomLedger.Proofs.Clr.Unknown

/-!
The order of the fields in a rom block does not matter. A malformed hash ends the reading of its block, so
blocks with the same fields in another order are not read alike; but each of them leaves out its rom if one of
the hashes is malformed, wherever that one stands, and otherwise gives the one rom that shows all fields.
-/
namespace RomLedger.Clr

def Field.Allows (v : Token) : Field → Prop
  | .name | .description => v.kind.isText = true
  | .size => v.kind.isWord = true ∧ ∃ n, Coercion.size v.text = .ok n
  | .hash _ => v.kind.isWord = true

/-- A field of a rom block with its value. -/
structure Entry where
  key : Token
  value : Token
  field : Field
  known : ∃ k, key.kind = .keyword k ∧ romField? k = some field
  allowed : field.Allows value

def Entry.Malformed (e : Entry) : Prop :=
  ∃ h x, e.field = .hash h ∧ Coercion.hash h.digits e.value.text = .error x

inductive Filler : List Token → Prop
  | nil : Filler []
  | token {t : Token} {ts : List Token} (text : t.kind.isText = true)
      (unknown : ∀ k, t.kind = .keyword k → romField? k = none) (later : Filler ts) : Filler (t :: ts)
  | block {o e : Token} {inside ts : List Token} (opens : o.kind = .openBrace) (balanced : Balanced inside)
      (closes : e.kind = .closeBrace) (later : Filler ts) : Filler (o :: (inside ++ [e]) ++ ts)

inductive Contents : List Entry → List Token → Prop
  | done {us : List Token} (filler : Filler us) : Contents [] us
  | entry {e : Entry} {es : List Entry} {us ts : List Token} (filler : Filler us) (later : Contents es ts) :
      Contents (e :: es) (us ++ e.key :: e.value :: ts)

inductive RomBlock (es : List Entry) : List Token → Prop
  | mk {r o e : Token} {ts : List Token} (rom : r.kind = .keyword .rom) (opens : o.kind = .openBrace)
      (contents : Contents es ts) (closes : e.kind = .closeBrace) : RomBlock es (r :: o :: (ts ++ [e]))

/-- The rom has in this field what the text stands for. -/
def Field.Shows (text : String) (r : Rom) : Field → Prop
  | .name => r.name = text
  | .description => True
  | .size => Coercion.size text = .ok r.size
  | .hash h => Coercion.hash h.digits text = .ok (h.get r)

def Field.Same (r r' : Rom) : Field → Prop
  | .name => r.name = r'.name
  | .description => True
  | .size => r.size = r'.size
  | .hash h => h.get r = h.get r'

/-- The second rom is the first one with the fields filled in. -/
structure Filled (es : List Entry) (r r' : Rom) : Prop where
  given : ∀ e ∈ es, e.field.Shows e.value.text r'
  other : ∀ f, (∀ e ∈ es, e.field ≠ f) → f.Same r r'

/-- What fields make of a rom: it is left out if a hash is malformed, and otherwise filled in. -/
structure Outcome (es : List Entry) (r : Rom) (o : Option Rom) : Prop where
  dropped : o = none ↔ ∃ e ∈ es, e.Malformed
  filled : ∀ r' ∈ o, Filled es r r'

variable {c : Catalog} {g : Game} {r r' m : Rom} {o o' : Option Rom} {f : Field} {e : Entry} {es es' : List Entry}
  {ts ts' us its : List Token} {text : String}

theorem Field.Same.refl (f : Field) (r : Rom) : f.Same r r := by
  cases f with
  | description => trivial
  | name | size | hash h => rfl

theorem Field.Same.symm (same : f.Same r r') : f.Same r' r := by
  cases f with
  | description => trivial
  | name | size | hash h => exact Eq.symm same

theorem Field.Same.trans (first : f.Same r m) (second : f.Same m r') : f.Same r r' := by
  cases f with
  | description => trivial
  | name | size | hash h => exact Eq.trans first second

theorem Field.Shows.of_same (shows_ : f.Shows text m) (same : f.Same m r') : f.Shows text r' := by
  cases f with
  | description => trivial
  | name => exact (Eq.symm same).trans shows_
  | size => exact shows_.trans (congrArg _ same)
  | hash h => exact shows_.trans (congrArg _ same)

theorem Field.Shows.same (shows_ : f.Shows text r) (shows' : f.Shows text r') : f.Same r r' := by
  cases f with
  | description => trivial
  | name => exact Eq.trans shows_ shows'.symm
  | size | hash h => exact Except.ok.inj (shows_.symm.trans shows')

theorem eq_of_same (same : ∀ f : Field, f.Same r r') : r = r' := by
  have name := same .name
  have size := same .size
  have crc := same (.hash .crc)
  have md5 := same (.hash .md5)
  have sha1 := same (.hash .sha1)
  cases r
  cases r'
  simp only [Field.Same, HashField.get] at name size crc md5 sha1
  simp only [name, size, crc, md5, sha1]

theorem Filled.unique (first : Filled es r m) (second : Filled es r r') : m = r' := by
  apply eq_of_same
  intro f
  by_cases given : ∃ e ∈ es, e.field = f
  · obtain ⟨e, member, rfl⟩ := given
    exact (first.given e member).same (second.given e member)
  · have absent : ∀ e ∈ es, e.field ≠ f := fun e member same => given ⟨e, member, same⟩
    exact (first.other f absent).symm.trans (second.other f absent)

theorem Outcome.unique (first : Outcome es r o) (second : Outcome es r o') : o = o' := by
  cases o with
  | none => exact (second.dropped.mpr (first.dropped.mp rfl)).symm
  | some m =>
    cases o' with
    | none => cases first.dropped.mpr (second.dropped.mp rfl)
    | some r' => rw [(first.filled m rfl).unique (second.filled r' rfl)]

theorem Outcome.perm (outcome : Outcome es r o) (perm : es.Perm es') : Outcome es' r o := by
  refine ⟨?_, fun r' member => ⟨fun e known => ?_, fun f absent => ?_⟩⟩
  · rw [outcome.dropped]
    simp only [perm.mem_iff]
  · exact (outcome.filled r' member).given e (perm.mem_iff.mpr known)
  · exact (outcome.filled r' member).other f fun e known => absent e (perm.mem_iff.mp known)

theorem Outcome.nil (r : Rom) : Outcome [] r (some r) := by
  refine ⟨by simp, fun r' member => ?_⟩
  obtain rfl := Option.some.inj member
  exact ⟨fun e none_ => absurd none_ List.not_mem_nil, fun f _ => .refl f r⟩

theorem Outcome.malformed (bad : e.Malformed) : Outcome (e :: es) r none :=
  ⟨iff_of_true rfl ⟨e, List.mem_cons_self, bad⟩, nofun⟩

theorem Outcome.cons (good : ¬e.Malformed) (shows_ : e.field.Shows e.value.text m)
    (kept : ∀ f, e.field ≠ f → f.Same r m) (fresh : ∀ d ∈ es, d.field ≠ e.field) (later : Outcome es m o) :
    Outcome (e :: es) r o := by
  refine ⟨?_, fun r' member => ⟨?_, fun f absent => ?_⟩⟩
  · rw [later.dropped]
    simp [good]
  · intro d known
    rcases List.mem_cons.mp known with rfl | known
    · exact shows_.of_same ((later.filled r' member).other d.field fresh)
    · exact (later.filled r' member).given d known
  · obtain ⟨front, behind⟩ := List.forall_mem_cons.mp absent
    exact (kept f front).trans ((later.filled r' member).other f behind)

theorem HashField.get_set (h : HashField) (r : Rom) (b : Option Bytes) : h.get (h.set r b) = b := by
  cases h <;> rfl

theorem same_name (apart : Field.name ≠ f) : f.Same r { r with name := text } := by
  cases f with
  | name => exact absurd rfl apart
  | description => trivial
  | size | hash h => rfl

theorem same_size {n : UInt64} (apart : Field.size ≠ f) : f.Same r { r with size := n } := by
  cases f with
  | size => exact absurd rfl apart
  | description => trivial
  | name | hash h => rfl

theorem same_set {h : HashField} {b : Option Bytes} (apart : Field.hash h ≠ f) : f.Same r (h.set r b) := by
  cases f with
  | description => trivial
  | name | size => cases h <;> rfl
  | hash h' => cases h <;> cases h' <;> first | rfl | exact absurd rfl apart

theorem step_allowed (allowed : f.Allows e.value) (same : e.field = f) (r : Rom) :
    (e.Malformed ∧ ∀ c g, step ⟨c, .value f (.rom g r)⟩ e.value = .ok ⟨c, within g none⟩) ∨
      ∃ m, ¬e.Malformed ∧ f.Shows e.value.text m ∧ (∀ f', f ≠ f' → f'.Same r m) ∧
        ∀ c g, step ⟨c, .value f (.rom g r)⟩ e.value = .ok ⟨c, within g (some m)⟩ := by
  have sound (unhashed : ∀ h, f ≠ .hash h) : ¬e.Malformed := by
    rintro ⟨h, x, hash, -⟩
    exact unhashed h (same.symm.trans hash)
  cases f with
  | name =>
    refine .inr ⟨{ r with name := e.value.text }, sound (by simp), rfl, fun f' => same_name, fun c g => ?_⟩
    rcases Kind.isText_iff.mp allowed with kind | kind | ⟨w, kind⟩ <;>
      simp [step, stepValue, kind, setName, within]
  | description =>
    refine .inr ⟨r, sound (by simp), trivial, fun f' _ => .refl f' r, fun c g => ?_⟩
    rcases Kind.isText_iff.mp allowed with kind | kind | ⟨w, kind⟩ <;>
      simp [step, stepValue, kind, setDescription, within]
  | size =>
    obtain ⟨word, n, understood⟩ := allowed
    refine .inr ⟨{ r with size := n }, sound (by simp), understood, fun f' => same_size, fun c g => ?_⟩
    rcases Kind.isWord_iff.mp word with kind | kind <;>
      simp only [step, stepValue, kind, understood, setSize, within]
  | hash h =>
    cases understood : Coercion.hash h.digits e.value.text with
    | error x =>
      refine .inl ⟨⟨h, x, same, understood⟩, fun c g => ?_⟩
      rcases Kind.isWord_iff.mp allowed with kind | kind <;>
        simp only [step, stepValue, kind, setHash, understood, Place.outer, within]
    | ok b =>
      have good : ¬e.Malformed := by
        rintro ⟨h', x, hash, refused⟩
        obtain rfl := Field.hash.inj (same.symm.trans hash)
        cases understood.symm.trans refused
      have shows_ : Field.Shows e.value.text (h.set r b) (.hash h) := by
        rw [Field.Shows, HashField.get_set, understood]
      refine .inr ⟨h.set r b, good, shows_, fun f' => same_set, fun c g => ?_⟩
      rcases Kind.isWord_iff.mp allowed with kind | kind <;>
        simp only [step, stepValue, kind, setHash, understood, within]

theorem Filler.of_unknownBlock (unknown : UnknownBlock its) : Filler its := by
  obtain ⟨word, opens, balanced, closes⟩ := unknown
  have block := Filler.block opens balanced closes .nil
  rw [List.append_nil] at block
  refine .token (Kind.isText_iff.mpr (.inr (.inl word))) ?_ block
  intro k keyword
  cases word.symm.trans keyword

theorem run_filler (filler : Filler us) : run ⟨c, within g o⟩ us = .ok ⟨c, within g o⟩ := by
  have idle : (within g o).isIdle = true := by cases o <;> rfl
  induction filler with
  | nil => rfl
  | @token t ts text unknown later ih =>
    have ignored : State.ignores ⟨c, within g o⟩ t.kind = true := by
      cases o with
      | none => rfl
      | some r =>
        rcases Kind.isText_iff.mp text with kind | kind | ⟨k, kind⟩
        · simp [State.ignores, within, kind]
        · simp [State.ignores, within, kind]
        · simp [State.ignores, within, kind, Place.knows, field?_rom, block?_rom, unknown k kind]
    exact run_cons.mpr ⟨_, (step_eq_iff idle text).mpr ignored, ih⟩
  | block opens balanced closes later ih => exact run_append.mpr ⟨_, run_block idle opens balanced closes, ih⟩

theorem Entry.isText_value (e : Entry) : e.value.kind.isText = true := by
  obtain ⟨key, value, field, known, allowed⟩ := e
  have word (word : value.kind.isWord = true) : value.kind.isText = true :=
    Kind.isText_iff.mpr ((Kind.isWord_iff.mp word).elim .inl fun bare => .inr (.inl bare))
  cases field with
  | name | description => exact allowed
  | size => exact word allowed.1
  | hash h => exact word allowed

theorem run_dropped (contents : Contents es ts) : run ⟨c, within g none⟩ ts = .ok ⟨c, within g none⟩ := by
  induction contents with
  | done filler => exact run_filler filler
  | @entry e es us ts filler later ih =>
    obtain ⟨k, keyword, -⟩ := e.known
    have value := e.isText_value
    have passed : Balanced [e.key, e.value] := by
      refine .other ?_ ?_ (.other ?_ ?_ .nil)
      · rw [keyword]
        nofun
      · rw [keyword]
        nofun
      · intro opens
        rw [opens] at value
        cases value
      · intro closes
        rw [closes] at value
        cases value
    have whole : us ++ e.key :: e.value :: ts = us ++ ([e.key, e.value] ++ ts) := rfl
    rw [whole]
    exact run_append.mpr ⟨_, run_filler filler, run_append.mpr ⟨_, run_skipping passed, ih⟩⟩

theorem run_contents (contents : Contents es ts) (distinct : (es.map Entry.field).Nodup) (r : Rom) :
    ∃ o, Outcome es r o ∧ ∀ c g, run ⟨c, within g (some r)⟩ ts = .ok ⟨c, within g o⟩ := by
  induction contents generalizing r with
  | done filler => exact ⟨some r, .nil r, fun c g => run_filler filler⟩
  | @entry e es us ts filler later ih =>
    obtain ⟨k, keyword, known⟩ := e.known
    rw [List.map_cons, List.nodup_cons] at distinct
    have fresh : ∀ d ∈ es, d.field ≠ e.field := fun d member same =>
      distinct.1 (same ▸ List.mem_map_of_mem member)
    rcases step_allowed e.allowed rfl r with ⟨bad, taken⟩ | ⟨m, good, shows_, kept, taken⟩
    · -- the fields that follow are passed over, so that nothing is asked of them
      refine ⟨none, .malformed bad, fun c g => ?_⟩
      exact run_append.mpr ⟨_, run_filler filler, run_cons.mpr ⟨_, step_field keyword known,
        run_cons.mpr ⟨_, taken c g, run_dropped later⟩⟩⟩
    · obtain ⟨o, outcome, through⟩ := ih distinct.2 m
      refine ⟨o, .cons good shows_ kept fresh outcome, fun c g => ?_⟩
      exact run_append.mpr ⟨_, run_filler filler, run_cons.mpr ⟨_, step_field keyword known,
        run_cons.mpr ⟨_, taken c g, through c g⟩⟩⟩

theorem run_romBlock (block : RomBlock es ts) (distinct : (es.map Entry.field).Nodup) :
    ∃ o, Outcome es .blank o ∧ ∀ c g, run ⟨c, .at_ (.game g)⟩ ts =
      .ok ⟨c, .at_ (.game { g with roms := g.roms ++ o.toList })⟩ := by
  obtain @⟨r, o, e, ts, rom, opens, contents, closes⟩ := block
  obtain ⟨out, outcome, inside⟩ := run_contents contents distinct .blank
  refine ⟨out, outcome, fun c g => ?_⟩
  have named : step ⟨c, .at_ (.game g)⟩ r = .ok ⟨c, .opening (.rom g .blank)⟩ := by
    simp only [step, stepAt, rom, Place.field?, Place.block?]
  have opened : step ⟨c, .opening (.rom g .blank)⟩ o = .ok ⟨c, within g (some .blank)⟩ := by
    simp only [step, stepOpening, opens, within]
  have ended : step ⟨c, within g out⟩ e = .ok ⟨c, .at_ (.game { g with roms := g.roms ++ out.toList })⟩ := by
    cases out with
    | none => simp only [step, within, stepSkipping, closes, Option.toList_none, List.append_nil]
    | some r => simp only [step, within, stepAt, closes, close, Option.toList_some]
  exact run_cons.mpr ⟨_, named, run_cons.mpr ⟨_, opened, run_append.mpr ⟨_, inside c g, run_singleton.mpr ended⟩⟩⟩

theorem parse_of_lexes {t : Feed} {all : List Token} {d : Catalog} (calm : t.failing = false)
    (lexes : Lexer.Lexes (Lexer.unmarked t.rest) all) : parse t = .ok (d, Sha1.digest t.rest) ↔
      ∃ written, run .start all = .ok ⟨written, .at_ .top⟩ ∧ written.normalize = d := by
  rw [parse_iff calm]
  constructor
  · rintro ⟨-, found, written, whole, complete⟩
    obtain rfl := (Lexer.tokens_of_lexes calm lexes).1.symm.trans (Lexer.tokens_of_lexes calm whole).1
    exact ⟨written, complete⟩
  · rintro ⟨written, complete⟩
    exact ⟨rfl, all, written, lexes, complete⟩

/-- Rom blocks with the same fields in another order, and other filler, have the same outcome: no rom if one of
their hashes is malformed, and otherwise the rom with these fields. The game around them gets the same, and so
texts that differ in nothing else stand for the same catalog. -/
theorem romBlock_of_perm (perm : es.Perm es') (distinct : (es.map Entry.field).Nodup) (block : RomBlock es ts)
    (block' : RomBlock es' ts') :
    ∃ o : Option Rom, (o = none ↔ ∃ e ∈ es, e.Malformed) ∧ (∀ r ∈ o, Filled es .blank r) ∧
      (∀ c g, run ⟨c, .at_ (.game g)⟩ ts = .ok ⟨c, .at_ (.game { g with roms := g.roms ++ o.toList })⟩ ∧
        run ⟨c, .at_ (.game g)⟩ ts' = .ok ⟨c, .at_ (.game { g with roms := g.roms ++ o.toList })⟩) ∧
      ∀ (t t' : Feed) (before after : List Token) (c : Catalog) (g : Game), t.failing = false →
        t'.failing = false → Lexer.Lexes (Lexer.unmarked t.rest) (before ++ ts ++ after) →
        Lexer.Lexes (Lexer.unmarked t'.rest) (before ++ ts' ++ after) →
        run .start before = .ok ⟨c, .at_ (.game g)⟩ →
        ∀ d, parse t = .ok (d, Sha1.digest t.rest) ↔ parse t' = .ok (d, Sha1.digest t'.rest) := by
  have distinct' : (es'.map Entry.field).Nodup := (perm.map Entry.field).nodup_iff.mp distinct
  obtain ⟨o, outcome, through⟩ := run_romBlock block distinct
  obtain ⟨o', outcome', through'⟩ := run_romBlock block' distinct'
  obtain rfl : o = o' := (outcome.perm perm).unique outcome'
  refine ⟨o, outcome.dropped, outcome.filled, fun c g => ⟨through c g, through' c g⟩, ?_⟩
  intro t t' before after c g calm calm' lexes lexes' front d
  have same : ∀ s, run .start (before ++ ts ++ after) = .ok s ↔ run .start (before ++ ts' ++ after) = .ok s := by
    intro s
    simp only [run_append, front, through, through', Except.ok.injEq, exists_eq_left']
  rw [parse_of_lexes calm lexes, parse_of_lexes calm' lexes']
  simp only [same]

def sizeEntry : Entry where
  key := ⟨.keyword .size, "SIZE", 0⟩
  value := ⟨.bare, "1", 0⟩
  field := .size
  known := ⟨.size, rfl, rfl⟩
  allowed := ⟨rfl, 1, by decide +kernel⟩

def nameEntry : Entry where
  key := ⟨.keyword .name, "name", 0⟩
  value := ⟨.keyword .rom, "rom", 0⟩
  field := .name
  known := ⟨.name, rfl, rfl⟩
  allowed := rfl

def badEntry : Entry where
  key := ⟨.keyword .crc, "crc32", 0⟩
  value := ⟨.quoted, "z", 0⟩
  field := .hash .crc
  known := ⟨.crc, rfl, rfl⟩
  allowed := rfl

def strangeBlock : List Token :=
  [⟨.bare, "x", 0⟩, ⟨.openBrace, "(", 0⟩, ⟨.keyword .size, "size", 0⟩, ⟨.closeBrace, ")", 0⟩]

theorem filler_strangeBlock : Filler strangeBlock := by
  have balanced : Balanced [⟨.keyword .size, "size", 0⟩] := .other nofun nofun .nil
  exact .of_unknownBlock (.mk rfl rfl balanced rfl)

def gameText (contents : String) : Bytes := Bytes.ofString ("game(rom(" ++ contents ++ "))")

theorem parse_permuted :
    parse (.whole (gameText "name rom x(size) crc32 \"z\" SIZE 1")) =
        .ok (⟨"", "", [.blank], []⟩, Sha1.digest (gameText "name rom x(size) crc32 \"z\" SIZE 1")) ∧
      parse (.whole (gameText "crc32 \"z\" SIZE 1 name rom x(size)")) =
        .ok (⟨"", "", [.blank], []⟩, Sha1.digest (gameText "crc32 \"z\" SIZE 1 name rom x(size)")) := by
  have parsed : parse (.whole (gameText "name rom x(size) crc32 \"z\" SIZE 1")) =
      .ok (⟨"", "", [.blank], []⟩, Sha1.digest (gameText "name rom x(size) crc32 \"z\" SIZE 1")) :=
    parse_of_read (by decide +kernel)
  have contents : Contents [nameEntry, badEntry, sizeEntry] ([] ++ nameEntry.key :: nameEntry.value ::
      (strangeBlock ++ badEntry.key :: badEntry.value :: ([] ++ sizeEntry.key :: sizeEntry.value :: []))) :=
    .entry .nil (.entry filler_strangeBlock (.entry .nil (.done .nil)))
  have contents' : Contents [badEntry, sizeEntry, nameEntry] ([] ++ badEntry.key :: badEntry.value ::
      ([] ++ sizeEntry.key :: sizeEntry.value :: ([] ++ nameEntry.key :: nameEntry.value :: strangeBlock))) :=
    .entry .nil (.entry .nil (.entry .nil (.done filler_strangeBlock)))
  have perm : ([nameEntry] ++ [badEntry, sizeEntry]).Perm ([badEntry, sizeEntry] ++ [nameEntry]) :=
    List.perm_append_comm
  have block := RomBlock.mk (r := ⟨.keyword .rom, "rom", 0⟩) (o := ⟨.openBrace, "(", 0⟩)
    (e := ⟨.closeBrace, ")", 0⟩) rfl rfl contents rfl
  have block' := RomBlock.mk (r := ⟨.keyword .rom, "rom", 0⟩) (o := ⟨.openBrace, "(", 0⟩)
    (e := ⟨.closeBrace, ")", 0⟩) rfl rfl contents' rfl
  obtain ⟨o, -, -, -, same⟩ := romBlock_of_perm perm (by decide) block block'
  refine ⟨parsed, (same (.whole _) (.whole _) [⟨.keyword .game, "game", 0⟩, ⟨.openBrace, "(", 0⟩]
    [⟨.closeBrace, ")", 0⟩] .blank .blank rfl rfl ?_ ?_ (by decide +kernel) _).mp parsed⟩
  · exact ⟨[], Lexer.scans_of_take? (n := 16) (by decide +kernel), nofun⟩
  · exact ⟨[], Lexer.scans_of_take? (n := 16) (by decide +kernel), nofun⟩

end RomLedger.Clr
