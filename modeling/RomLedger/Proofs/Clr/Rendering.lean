import RomLedger.Proofs.Catalog.Coercion
import RomLedger.Proofs.Catalog.Digest
import RomLedger.Proofs.Clr.Layout

/-!
A catalog that is written as text reads back as it was. A header block comes first, then a block for every
game with a block for every rom in it; texts are quoted, sizes are decimal and hashes hexadecimal. How the
lexemes are laid out, in which case the letters of words are and in what portions the text comes makes no
difference.
-/
namespace RomLedger

/-- A rom that has all its hashes at full length, those apart that are absent. -/
structure Rom.Textual (r : Rom) : Prop where
  name : Clr.Quotable r.name
  crc : ∀ b ∈ r.crc, b.length = 4
  md5 : ∀ b ∈ r.md5, b.length = 16
  sha1 : ∀ b ∈ r.sha1, b.length = 20

structure Game.Textual (g : Game) : Prop where
  name : Clr.Quotable g.name
  description : Clr.Quotable g.description
  roms : ∀ r ∈ g.roms, r.Textual
  disks : g.disks = []
  parts : g.parts = []
  regions : g.regions = []

structure Catalog.Textual (c : Catalog) : Prop where
  name : Clr.Quotable c.name
  description : Clr.Quotable c.description
  games : ∀ g ∈ c.games, g.Textual
  software : c.software = []

namespace Clr

def field (keyword : String) (value : Lexeme) : List Lexeme := [.word keyword, value]

def block (keyword : String) (inside : List Lexeme) : List Lexeme :=
  [.word keyword, .open_] ++ (inside ++ [.close])

def romLexemes (r : Rom) : List Lexeme :=
  block "rom" (field "name" (.quoted r.name) ++ field "size" (.word (toString r.size.toNat)) ++
    field "crc" (.word (Coercion.hashWord r.crc)) ++ field "md5" (.word (Coercion.hashWord r.md5)) ++
    field "sha1" (.word (Coercion.hashWord r.sha1)))

def gameLexemes (g : Game) : List Lexeme :=
  block "game" (field "name" (.quoted g.name) ++ field "description" (.quoted g.description) ++
    g.roms.flatMap romLexemes)

def catalogLexemes (c : Catalog) : List Lexeme :=
  block "clrmamepro" (field "name" (.quoted c.name) ++ field "description" (.quoted c.description)) ++
    c.games.flatMap gameLexemes

/-- Tokens that read as the lexemes lead from the one state to the other. -/
inductive Takes : List Lexeme → State → State → Prop
  | nil {s : State} : Takes [] s s
  | cons {x : Lexeme} {xs : List Lexeme} {s s' s'' : State} (first : ∀ t, x.Read t → step s t = .ok s')
      (later : Takes xs s' s'') : Takes (x :: xs) s s''

variable {s s' s'' : State} {c c' : Catalog} {p p' : Place} {xs ys : List Lexeme}

theorem Takes.append (front : Takes xs s s') (back : Takes ys s' s'') : Takes (xs ++ ys) s s'' := by
  induction front with
  | nil => exact back
  | cons first later ih => exact .cons first (ih back)

theorem run_of_takes (takes : Takes xs s s') {ts : List Token}
    (reads : List.Forall₂ (fun x t => x.Read t) xs ts) : run s ts = .ok s' := by
  induction takes generalizing ts with
  | nil =>
    cases reads
    rfl
  | cons first later ih =>
    obtain ⟨⟩ | ⟨front, others⟩ := reads
    rw [run, first _ front]
    exact ih others

theorem toLower_of_lower {w : String} (lower : w.toList.map Char.toLower = w.toList) : w.toLower = w := by
  rw [← String.toList_inj, String.toLower, String.toList_map, lower]

theorem keywords_lower : ∀ e ∈ keywords, e.1.toList.map Char.toLower = e.1.toList := by decide

theorem keywords_lookup : ∀ e ∈ keywords, keywords.lookup e.1 = some e.2 := by decide

/-- Every keyword is one as it stands in the list. -/
theorem classify_keyword {w : String} {k : Keyword} (member : (w, k) ∈ keywords) :
    classify w = .keyword k := by
  have found : keywords.lookup w = some k := keywords_lookup _ member
  rw [classify, toLower_of_lower (keywords_lower _ member), found]

theorem takes_field {w : String} {k : Keyword} {f : Field} {x : Lexeme} (keyword : (w, k) ∈ keywords)
    (known : p.field? k = some f) (value : ∀ t, x.Read t → stepValue c f p t = .ok s') :
    Takes (field w x) ⟨c, .at_ p⟩ s' := by
  have named : ∀ t, (Lexeme.word w).Read t → step ⟨c, .at_ p⟩ t = .ok ⟨c, .value f p⟩ := by
    rintro t ⟨kind, -⟩
    simp only [step, stepAt, kind.trans (classify_keyword keyword), known]
  exact .cons named (.cons value .nil)

theorem takes_opening {w : String} {k : Keyword} {q : Place} (keyword : (w, k) ∈ keywords)
    (unknown : p.field? k = none) (known : p.block? k = some q) :
    Takes [.word w, .open_] ⟨c, .at_ p⟩ ⟨c, .at_ q⟩ := by
  have named : ∀ t, (Lexeme.word w).Read t → step ⟨c, .at_ p⟩ t = .ok ⟨c, .opening q⟩ := by
    rintro t ⟨kind, -⟩
    simp only [step, stepAt, kind.trans (classify_keyword keyword), unknown, known]
  have opened : ∀ t, Lexeme.open_.Read t → step ⟨c, .opening q⟩ t = .ok ⟨c, .at_ q⟩ := by
    intro t kind
    rw [Lexeme.Read] at kind
    simp only [step, stepOpening, kind]
  exact .cons named (.cons opened .nil)

theorem takes_close : Takes [.close] ⟨c, .at_ p⟩ (close c p) := by
  have closed : ∀ t, Lexeme.close.Read t → step ⟨c, .at_ p⟩ t = .ok (close c p) := by
    intro t kind
    rw [Lexeme.Read] at kind
    simp only [step, stepAt, kind]
  exact .cons closed .nil

theorem takes_block {w : String} {k : Keyword} {q : Place} (keyword : (w, k) ∈ keywords)
    (unknown : p.field? k = none) (known : p.block? k = some q)
    (inside : Takes xs ⟨c, .at_ q⟩ ⟨c', .at_ p'⟩) : Takes (block w xs) ⟨c, .at_ p⟩ (close c' p') :=
  (takes_opening keyword unknown known).append (inside.append takes_close)

variable {t : Token} {w : String}

theorem stepValue_name (read : (Lexeme.quoted w).Read t) :
    stepValue c .name p t = .ok (setName c w p) := by
  obtain ⟨kind, rfl⟩ := read
  simp only [stepValue, kind, ↓reduceIte]

theorem stepValue_description (read : (Lexeme.quoted w).Read t) :
    stepValue c .description p t = .ok (setDescription c w p) := by
  obtain ⟨kind, rfl⟩ := read
  simp only [stepValue, kind, reduceCtorEq, ↓reduceIte]

/-- The characters of sizes and hashes: digits, the first six lower-case letters, and the dash. -/
def isValue (c : Char) : Bool := c.isDigit || ('a' ≤ c && c ≤ 'f') || c == '-'

theorem isPlain_of_isValue {c : Char} (value : isValue c = true) : Text.isPlain c = true := by
  grind [isValue, Text.isPlain, Char.isAlphanum, Char.isAlpha, Char.isLower, Char.le_def]

theorem toLower_of_isValue {c : Char} (value : isValue c = true) : c.toLower = c := by
  rw [isValue, Bool.or_eq_true, beq_iff_eq] at value
  rcases value with digit | rfl
  · grind [Char.toLower, Char.isDigit, Char.le_def]
  · decide

theorem keywords_other : ∀ e ∈ keywords, e.1.toList.all isValue = false := by decide

theorem classify_value {w : String} (value : ∀ c ∈ w.toList, isValue c = true) : classify w = .bare := by
  have same : ∀ c ∈ w.toList, c.toLower = id c := fun c member => toLower_of_isValue (value c member)
  have lower : w.toList.map Char.toLower = w.toList := by
    rw [List.map_congr_left same, List.map_id]
  have absent : keywords.lookup w = none := by
    rw [List.lookup_eq_none_iff]
    intro e member
    have other := keywords_other e member
    rw [bne_iff_ne]
    rintro rfl
    exact absurd ((List.all_eq_true.mpr value).symm.trans other) nofun
  rw [classify, toLower_of_lower lower, absent]

theorem isValue_of_isDigit {c : Char} (digit : c.isDigit = true) : isValue c = true := by
  rw [isValue, digit]
  rfl

theorem isValue_digit : ∀ n < 16, isValue (Hex.digit n) = true := by decide

theorem isValue_toString {n : Nat} : ∀ c ∈ (toString n).toList, isValue c = true := fun _ member =>
  isValue_of_isDigit (Coercion.isDigit_toString member)

theorem isValue_hashWord (h : Option Bytes) : ∀ c ∈ (Coercion.hashWord h).toList, isValue c = true := by
  cases h with
  | none => exact List.all_eq_true.mp (by decide)
  | some b =>
    intro c member
    rw [Coercion.hashWord, Hex.encode, String.toList_ofList] at member
    obtain ⟨n, small, rfl⟩ := Hex.mem_encodeList member
    exact isValue_digit n small

theorem stepValue_size {n : UInt64} (read : (Lexeme.word (toString n.toNat)).Read t) :
    stepValue c .size p t = .ok (setSize c n p) := by
  obtain ⟨kind, alike⟩ := read
  have bare := kind.trans (classify_value isValue_toString)
  have only : t.text = toString n.toNat := Text.eq_of_alike alike fun c member =>
    Coercion.uncased_toString member
  simp only [stepValue, bare, only, Coercion.size_toString]

theorem stepValue_hash {field : HashField} {h : Option Bytes} {g : Game} {r : Rom}
    (full : ∀ b ∈ h, 2 * b.length = field.digits) (read : (Lexeme.word (Coercion.hashWord h)).Read t) :
    stepValue c (.hash field) (.rom g r) t = .ok ⟨c, .at_ (.rom g (field.set r h))⟩ := by
  obtain ⟨kind, alike⟩ := read
  have bare := kind.trans (classify_value (isValue_hashWord h))
  have long : 2 ≤ field.digits := by
    cases field <;> decide
  have understood : Coercion.hash field.digits t.text = .ok h := Coercion.hash_hashWord full long alike
  simp only [stepValue, bare]
  unfold setHash
  simp only [understood]

theorem takes_name {w : String} (known : p.field? .name = some .name) :
    Takes (field "name" (.quoted w)) ⟨c, .at_ p⟩ (setName c w p) :=
  takes_field (k := .name) (by decide) known fun _ => stepValue_name

theorem takes_description {w : String} (known : p.field? .description = some .description) :
    Takes (field "description" (.quoted w)) ⟨c, .at_ p⟩ (setDescription c w p) :=
  takes_field (k := .description) (by decide) known fun _ => stepValue_description

theorem takes_size {n : UInt64} (known : p.field? .size = some .size) :
    Takes (field "size" (.word (toString n.toNat))) ⟨c, .at_ p⟩ (setSize c n p) :=
  takes_field (k := .size) (by decide) known fun _ => stepValue_size

theorem takes_hash {w : String} {k : Keyword} {f : HashField} {h : Option Bytes} {g : Game} {r : Rom}
    (keyword : (w, k) ∈ keywords) (known : (Place.rom g r).field? k = some (.hash f))
    (full : ∀ b ∈ h, 2 * b.length = f.digits) :
    Takes (field w (.word (Coercion.hashWord h))) ⟨c, .at_ (.rom g r)⟩ ⟨c, .at_ (.rom g (f.set r h))⟩ :=
  takes_field keyword known fun _ => stepValue_hash full

theorem takes_rom {g : Game} {r : Rom} (textual : r.Textual) :
    Takes (romLexemes r) ⟨c, .at_ (.game g)⟩ ⟨c, .at_ (.game { g with roms := g.roms ++ [r] })⟩ := by
  have full {h : Option Bytes} {n : Nat} (count : ∀ b ∈ h, b.length = n) : ∀ b ∈ h, 2 * b.length = 2 * n :=
    fun b present => congrArg (2 * ·) (count b present)
  have name := takes_name (c := c) (w := r.name) (p := .rom g .blank) rfl
  have size := name.append (takes_size (n := r.size) rfl)
  have crc := size.append (takes_hash (w := "crc") (k := .crc) (by decide) rfl (full textual.crc))
  have md5 := crc.append (takes_hash (w := "md5") (k := .md5) (by decide) rfl (full textual.md5))
  have sha1 := md5.append (takes_hash (w := "sha1") (k := .sha1) (by decide) rfl (full textual.sha1))
  exact takes_block (k := .rom) (by decide) rfl rfl sha1

theorem takes_roms {g : Game} {rs : List Rom} (textual : ∀ r ∈ rs, r.Textual) :
    Takes (rs.flatMap romLexemes) ⟨c, .at_ (.game g)⟩ ⟨c, .at_ (.game { g with roms := g.roms ++ rs })⟩ := by
  induction rs generalizing g with
  | nil =>
    rw [List.append_nil]
    exact .nil
  | cons r rs ih =>
    obtain ⟨front, later⟩ := List.forall_mem_cons.mp textual
    have others := (takes_rom (c := c) (g := g) front).append (ih later)
    rwa [List.append_assoc, List.singleton_append] at others

theorem takes_game {g : Game} (textual : g.Textual) :
    Takes (gameLexemes g) ⟨c, .at_ .top⟩ ⟨{ c with games := c.games ++ [g] }, .at_ .top⟩ := by
  obtain ⟨name, description, roms, disks, parts, regions⟩ := g
  obtain ⟨-, -, textual, rfl, rfl, rfl⟩ := textual
  have name := takes_name (c := c) (w := name) (p := .game .blank) rfl
  have description := name.append (takes_description (w := description) rfl)
  have roms := description.append (takes_roms textual)
  exact takes_block (k := .game) (by decide) rfl rfl roms

theorem takes_games {gs : List Game} (textual : ∀ g ∈ gs, g.Textual) :
    Takes (gs.flatMap gameLexemes) ⟨c, .at_ .top⟩ ⟨{ c with games := c.games ++ gs }, .at_ .top⟩ := by
  induction gs generalizing c with
  | nil =>
    rw [List.append_nil]
    exact .nil
  | cons g gs ih =>
    obtain ⟨front, later⟩ := List.forall_mem_cons.mp textual
    have others := (takes_game (c := c) front).append (ih later)
    rwa [List.append_assoc, List.singleton_append] at others

theorem takes_catalog (textual : c.Textual) : Takes (catalogLexemes c) .start ⟨c, .at_ .top⟩ := by
  obtain ⟨name, description, games, software⟩ := c
  obtain ⟨-, -, textual, rfl⟩ := textual
  have name := takes_name (c := .blank) (w := name) (p := .header) rfl
  have description := name.append (takes_description (w := description) rfl)
  have header := takes_block (w := "clrmamepro") (k := .clrmamepro) (p := .top) (by decide) rfl rfl description
  exact header.append (takes_games textual)

theorem keywords_plain : ∀ e ∈ keywords, e.1 ≠ "" ∧ e.1.toList.all Text.isPlain = true := by decide

theorem keywords_proper : ∀ e ∈ keywords, (Lexeme.word e.1).Proper := by
  intro e member
  obtain ⟨some_, plain⟩ := keywords_plain e member
  exact ⟨some_, List.all_eq_true.mp plain⟩

theorem proper_of_isValue {w : String} (some_ : w ≠ "") (value : ∀ c ∈ w.toList, isValue c = true) :
    (Lexeme.word w).Proper :=
  ⟨some_, fun c member => isPlain_of_isValue (value c member)⟩

theorem proper_size (n : UInt64) : (Lexeme.word (toString n.toNat)).Proper := by
  apply proper_of_isValue
  · intro none
    have digits := Numeral.toList_natural n.toNat
    rw [none] at digits
    exact Nat.toDigits_ne_nil digits.symm
  · exact isValue_toString

theorem proper_hash {h : Option Bytes} {n : Nat} (full : ∀ b ∈ h, b.length = n + 1) :
    (Lexeme.word (Coercion.hashWord h)).Proper := by
  apply proper_of_isValue
  · cases h with
    | none => decide
    | some b =>
      intro none
      have digits := congrArg String.length none
      rw [Coercion.hashWord, Hex.encode, String.length_ofList, Hex.length_encodeList, full b rfl] at digits
      cases digits
  · exact isValue_hashWord h

theorem proper_field {w : String} {k : Keyword} {x : Lexeme} (keyword : (w, k) ∈ keywords) (proper : x.Proper) :
    ∀ y ∈ field w x, y.Proper := by
  intro y member
  rcases List.mem_cons.mp member with rfl | member
  · exact keywords_proper _ keyword
  · rwa [List.mem_singleton.mp member]

theorem proper_quoted {w s : String} {k : Keyword} (keyword : (w, k) ∈ keywords) (quotable : Quotable s) :
    ∀ y ∈ field w (.quoted s), y.Proper := by
  apply proper_field keyword
  exact quotable

theorem proper_block {w : String} {k : Keyword} (keyword : (w, k) ∈ keywords)
    (proper : ∀ x ∈ xs, x.Proper) : ∀ x ∈ block w xs, x.Proper := by
  intro x member
  rw [block, List.mem_append, List.mem_append, List.mem_pair, List.mem_singleton] at member
  rcases member with (rfl | rfl) | inside | rfl
  · exact keywords_proper _ keyword
  · trivial
  · exact proper x inside
  · trivial

theorem proper_rom {r : Rom} (textual : r.Textual) : ∀ x ∈ romLexemes r, x.Proper := by
  apply proper_block (k := .rom) (by decide)
  intro x member
  simp only [List.mem_append] at member
  rcases member with (((name | size) | crc) | md5) | sha1
  · exact proper_quoted (k := .name) (by decide) textual.name x name
  · exact proper_field (k := .size) (by decide) (proper_size r.size) x size
  · exact proper_field (k := .crc) (by decide) (proper_hash textual.crc) x crc
  · exact proper_field (k := .md5) (by decide) (proper_hash textual.md5) x md5
  · exact proper_field (k := .sha1) (by decide) (proper_hash textual.sha1) x sha1

theorem proper_game {g : Game} (textual : g.Textual) : ∀ x ∈ gameLexemes g, x.Proper := by
  apply proper_block (k := .game) (by decide)
  intro x member
  simp only [List.mem_append, List.mem_flatMap] at member
  rcases member with (name | description) | ⟨r, among, inside⟩
  · exact proper_quoted (k := .name) (by decide) textual.name x name
  · exact proper_quoted (k := .description) (by decide) textual.description x description
  · exact proper_rom (textual.roms r among) x inside

theorem proper_catalog (textual : c.Textual) : ∀ x ∈ catalogLexemes c, x.Proper := by
  intro x member
  rcases List.mem_append.mp member with header | games
  · apply proper_block (k := .clrmamepro) (by decide) _ x header
    intro x member
    rcases List.mem_append.mp member with name | description
    · exact proper_quoted (k := .name) (by decide) textual.name x name
    · exact proper_quoted (k := .description) (by decide) textual.description x description
  · obtain ⟨g, among, inside⟩ := List.mem_flatMap.mp games
    exact proper_game (textual.games g among) x inside

theorem read_of_run {ts : List Token} {last : Token} (through : run .start ts = .ok ⟨c, .at_ .top⟩)
    (ended : last.kind = .ended) : read ts last = .ok c := by
  simp only [read, through, finish, ended, reduceCtorEq, ↓reduceIte]

/-- A catalog in normal form comes back from any text that is laid out from its lexemes, with the digest of
that text. -/
theorem parse_layout {f : Feed} (calm : f.failing = false) (textual : c.Textual) (normal : c.normalize = c)
    (layout : Layout (catalogLexemes c) f.rest) : parse f = .ok (c, Sha1.digest f.rest) := by
  have proper := proper_catalog textual
  have ready : (Lexer.ofReader (.ofFeed f)).Ready f.rest :=
    ⟨calm, rfl, rfl, fun _ => Lexer.unmarked_of_layout layout proper⟩
  obtain ⟨reads, ended⟩ := Lexer.tokens_of_layout layout proper ready
  have complete := read_of_run (run_of_takes (takes_catalog textual) reads) ended
  obtain ⟨digest, parsed⟩ : ∃ digest, parse f = .ok (c, digest) := by
    refine ⟨(Lexer.ofReader (.ofFeed f)).tokens.2.2.reader.meter.digest, ?_⟩
    simp only [parse, complete, normal]
  rw [parsed, digest_of_parse parsed]

/-- Texts that hold quotes, blanks, parentheses, equals signs, keywords and a backslash before a quote. -/
def sample : Catalog where
  name := "Set = (A)"
  description := "x\\\"y"
  games := [⟨"rom", "", [⟨"a b.bin", 18446744073709551615, some [0xde, 0xad, 0xbe, 0xef], none, none⟩],
    [], [], []⟩]
  software := []

def sampleText : String :=
  "clrmamepro ( name \"Set\\ =\\ (A)\" description \"x\\\\\"y\" ) game ( name \"rom\" description \"\" rom ( " ++
    "name \"a\\ b.bin\" size 18446744073709551615 crc deadbeef md5 - sha1 - ) ) "

theorem sample_spaced : spaced (catalogLexemes sample) = Bytes.ofString sampleText := by
  decide +kernel

theorem sample_textual : sample.Textual := by
  refine ⟨by decide, by decide, ?_, rfl⟩
  intro g member
  obtain rfl := List.mem_singleton.mp member
  refine ⟨by decide, by decide, ?_, rfl, rfl, rfl⟩
  intro r member
  obtain rfl := List.mem_singleton.mp member
  exact ⟨by decide, by decide, by decide, by decide⟩

theorem parse_sample : parse (.steady (Bytes.ofString sampleText) (some 7) none) =
    .ok (sample, Sha1.digest (Bytes.ofString sampleText)) := by
  have layout : Layout (catalogLexemes sample) (Bytes.ofString sampleText) := by
    rw [← sample_spaced]
    exact layout_spaced (catalogLexemes sample)
  have normal : sample.normalize = sample := by
    decide +kernel
  generalize Bytes.ofString sampleText = text at layout ⊢
  exact parse_layout (f := .steady text (some 7) none) rfl sample_textual normal layout

end Clr
end RomLedger
