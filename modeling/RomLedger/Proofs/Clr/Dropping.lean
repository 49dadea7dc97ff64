import RomLedger.Proofs.Clr.Scanning

/-!
A rom with a malformed hash disappears and nothing else changes. What follows the hash is passed over up to
the parenthesis that closes the block, whatever it looks like, as long as its own parentheses match; then
reading goes on in the game around it as if the block had not been there.
-/
namespace RomLedger.Clr

inductive Balanced : List Token → Prop
  | nil : Balanced []
  | other {t : Token} {ts : List Token} (unopened : t.kind ≠ .openBrace) (unclosed : t.kind ≠ .closeBrace)
      (later : Balanced ts) : Balanced (t :: ts)
  | block {o e : Token} {inside ts : List Token} (opens : o.kind = .openBrace) (closes : e.kind = .closeBrace)
      (balanced : Balanced inside) (later : Balanced ts) : Balanced (o :: (inside ++ e :: ts))

namespace Kind

def isWord : Kind → Bool
  | .quoted | .bare => true
  | _ => false

def isText : Kind → Bool
  | .quoted | .bare | .keyword _ => true
  | _ => false

theorem isWord_iff {k : Kind} : k.isWord = true ↔ k = .quoted ∨ k = .bare := by
  cases k <;> simp [isWord]

theorem isText_iff {k : Kind} : k.isText = true ↔ k = .quoted ∨ k = .bare ∨ ∃ w, k = .keyword w := by
  cases k <;> simp [isText]

end Kind

def romField? (k : Keyword) : Option Field := Place.field? (.rom .blank .blank) k

def Field.Accepts (v : Token) : Field → Prop
  | .name | .description => v.kind.isText = true
  | .size => v.kind.isWord = true ∧ ∃ n, Coercion.size v.text = .ok n
  | .hash h => v.kind.isWord = true ∧ ∃ b, Coercion.hash h.digits v.text = .ok b

inductive RomFields : List Token → Prop
  | nil : RomFields []
  | field {t v : Token} {k : Keyword} {f : Field} {ts : List Token} (keyword : t.kind = .keyword k)
      (known : romField? k = some f) (value : f.Accepts v) (later : RomFields ts) : RomFields (t :: v :: ts)
  | word {t : Token} {ts : List Token} (unknown : t.kind.isWord = true) (later : RomFields ts) :
      RomFields (t :: ts)
  | keyword {t : Token} {k : Keyword} {ts : List Token} (keyword : t.kind = .keyword k)
      (unknown : romField? k = none) (later : RomFields ts) : RomFields (t :: ts)
  | block {o e : Token} {inside ts : List Token} (opens : o.kind = .openBrace) (closes : e.kind = .closeBrace)
      (balanced : Balanced inside) (later : RomFields ts) : RomFields (o :: (inside ++ e :: ts))

/-- A rom block that is well formed up to its first malformed hash, and balanced from there on. -/
inductive MalformedRom : List Token → Prop
  | mk {r o t v e : Token} {k : Keyword} {h : HashField} {x : Coercion.BadHex} {fields junk : List Token}
      (rom : r.kind = .keyword .rom) (opens : o.kind = .openBrace) (sound : RomFields fields)
      (keyword : t.kind = .keyword k) (known : romField? k = some (.hash h)) (value : v.kind.isWord = true)
      (malformed : Coercion.hash h.digits v.text = .error x) (balanced : Balanced junk)
      (closes : e.kind = .closeBrace) : MalformedRom (r :: o :: (fields ++ t :: v :: (junk ++ [e])))

/-- The text at the front and the back together is read directly inside a game where the back begins. -/
def InGame (front back : Bytes) : Prop :=
  ∃ ts c g, After front ts back ∧ run .start ts = .ok ⟨c, .at_ (.game g)⟩

variable {c : Catalog} {p : Place} {g : Game} {r : Rom} {ts us : List Token}

theorem run_skipping {d : Nat} (balanced : Balanced ts) :
    run ⟨c, .skipping d p⟩ ts = .ok ⟨c, .skipping d p⟩ := by
  induction balanced generalizing d with
  | nil => rfl
  | @other t ts unopened unclosed later ih =>
    refine run_cons.mpr ⟨_, ?_, ih⟩
    cases kind : t.kind with
    | openBrace => exact absurd kind unopened
    | closeBrace => exact absurd kind unclosed
    | keyword k | quoted | bare | ended | faulty => simp only [step, stepSkipping, kind]
  | @block o e inside ts opens closes balanced later within ih =>
    have first : step ⟨c, .skipping d p⟩ o = .ok ⟨c, .skipping (d + 1) p⟩ := by
      simp only [step, stepSkipping, opens]
    have last : step ⟨c, .skipping (d + 1) p⟩ e = .ok ⟨c, .skipping d p⟩ := by
      simp only [step, stepSkipping, closes]
    exact run_cons.mpr ⟨_, first, run_append.mpr ⟨_, within, run_cons.mpr ⟨_, last, ih⟩⟩⟩

theorem run_rest {e : Token} (balanced : Balanced ts) (closes : e.kind = .closeBrace) :
    run ⟨c, .skipping 0 p⟩ (ts ++ [e]) = .ok ⟨c, .at_ p⟩ := by
  have last : step ⟨c, .skipping 0 p⟩ e = .ok ⟨c, .at_ p⟩ := by
    simp only [step, stepSkipping, closes]
  exact run_append.mpr ⟨_, run_skipping balanced, run_cons.mpr ⟨_, last, rfl⟩⟩

theorem run_unknown {o e : Token} (opens : o.kind = .openBrace) (balanced : Balanced ts)
    (closes : e.kind = .closeBrace) : run ⟨c, .at_ p⟩ (o :: (ts ++ [e])) = .ok ⟨c, .at_ p⟩ := by
  have first : step ⟨c, .at_ p⟩ o = .ok ⟨c, .skipping 0 p⟩ := by
    simp only [step, stepAt, opens]
  exact run_cons.mpr ⟨_, first, run_rest balanced closes⟩

theorem field?_rom (g : Game) (r : Rom) (k : Keyword) : (Place.rom g r).field? k = romField? k := by
  cases k <;> rfl

theorem block?_rom (g : Game) (r : Rom) (k : Keyword) : (Place.rom g r).block? k = none := by
  cases k <;> rfl

theorem step_field {t : Token} {k : Keyword} {f : Field} (keyword : t.kind = .keyword k)
    (known : romField? k = some f) : step ⟨c, .at_ (.rom g r)⟩ t = .ok ⟨c, .value f (.rom g r)⟩ := by
  simp only [step, stepAt, keyword, field?_rom, known]

theorem step_value {v : Token} {f : Field} (value : f.Accepts v) :
    ∃ r', step ⟨c, .value f (.rom g r)⟩ v = .ok ⟨c, .at_ (.rom g r')⟩ := by
  cases f with
  | name =>
    refine ⟨{ r with name := v.text }, ?_⟩
    rcases Kind.isText_iff.mp value with kind | kind | ⟨w, kind⟩ <;> simp [step, stepValue, kind, setName]
  | description =>
    refine ⟨r, ?_⟩
    rcases Kind.isText_iff.mp value with kind | kind | ⟨w, kind⟩ <;>
      simp [step, stepValue, kind, setDescription]
  | size =>
    obtain ⟨word, n, understood⟩ := value
    refine ⟨{ r with size := n }, ?_⟩
    rcases Kind.isWord_iff.mp word with kind | kind <;> simp only [step, stepValue, kind, understood, setSize]
  | hash h =>
    obtain ⟨word, b, understood⟩ := value
    refine ⟨h.set r b, ?_⟩
    rcases Kind.isWord_iff.mp word with kind | kind <;> simp only [step, stepValue, kind, setHash, understood]

theorem run_fields (sound : RomFields ts) :
    ∃ r', run ⟨c, .at_ (.rom g r)⟩ ts = .ok ⟨c, .at_ (.rom g r')⟩ := by
  induction sound generalizing r with
  | nil => exact ⟨r, rfl⟩
  | field keyword known value later ih =>
    obtain ⟨r', taken⟩ := step_value (c := c) (g := g) (r := r) value
    obtain ⟨r'', rest⟩ := ih (r := r')
    exact ⟨r'', run_cons.mpr ⟨_, step_field keyword known, run_cons.mpr ⟨_, taken, rest⟩⟩⟩
  | @word t ts unknown later ih =>
    have ignored : step ⟨c, .at_ (.rom g r)⟩ t = .ok ⟨c, .at_ (.rom g r)⟩ := by
      rcases Kind.isWord_iff.mp unknown with kind | kind <;> simp only [step, stepAt, kind]
    obtain ⟨r', rest⟩ := ih (r := r)
    exact ⟨r', run_cons.mpr ⟨_, ignored, rest⟩⟩
  | @keyword t k ts keyword unknown later ih =>
    have ignored : step ⟨c, .at_ (.rom g r)⟩ t = .ok ⟨c, .at_ (.rom g r)⟩ := by
      simp only [step, stepAt, keyword, field?_rom, unknown, block?_rom]
    obtain ⟨r', rest⟩ := ih (r := r)
    exact ⟨r', run_cons.mpr ⟨_, ignored, rest⟩⟩
  | @block o e inside ts opens closes balanced later ih =>
    obtain ⟨r', rest⟩ := ih (r := r)
    have whole : o :: (inside ++ e :: ts) = o :: (inside ++ [e]) ++ ts := by simp
    rw [whole]
    exact ⟨r', run_append.mpr ⟨_, run_unknown opens balanced closes, rest⟩⟩

theorem run_malformed (malformed : MalformedRom ts) :
    run ⟨c, .at_ (.game g)⟩ ts = .ok ⟨c, .at_ (.game g)⟩ := by
  obtain @⟨r, o, t, v, e, k, h, x, fields, junk, rom, opens, sound, keyword, known, value, refused, balanced,
    closes⟩ := malformed
  obtain ⟨r', within⟩ := run_fields (c := c) (g := g) (r := .blank) sound
  have named : step ⟨c, .at_ (.game g)⟩ r = .ok ⟨c, .opening (.rom g .blank)⟩ := by
    simp only [step, stepAt, rom, Place.field?, Place.block?]
  have opened : step ⟨c, .opening (.rom g .blank)⟩ o = .ok ⟨c, .at_ (.rom g .blank)⟩ := by
    simp only [step, stepOpening, opens]
  have dropped : step ⟨c, .value (.hash h) (.rom g r')⟩ v = .ok ⟨c, .skipping 0 (.game g)⟩ := by
    rcases Kind.isWord_iff.mp value with kind | kind <;>
      simp only [step, stepValue, kind, setHash, refused, Place.outer]
  refine run_cons.mpr ⟨_, named, run_cons.mpr ⟨_, opened, run_append.mpr ⟨_, within, ?_⟩⟩⟩
  exact run_cons.mpr ⟨_, step_field keyword known, run_cons.mpr ⟨_, dropped, run_rest balanced closes⟩⟩

/-- Wherever a rom block with a malformed hash is put into a game, the catalog stays the same. -/
theorem parse_malformed_rom {f f' : Feed} {front back gap gap' ins : Bytes} {its : List Token} {x : Bytes}
    (calm : f.failing = false) (calm' : f'.failing = false) (text : f.rest = front ++ back)
    (text' : f'.rest = front ++ (gap ++ ins ++ gap') ++ back) (spaces : Spaces gap) (spaces' : Spaces gap')
    (inside : InGame front back) (lexes : Lexer.Lexes ins its) (malformed : MalformedRom its)
    (parsed : parse f = .ok (c, x)) : parse f' = .ok (c, Sha1.digest f'.rest) := by
  obtain ⟨ts, d, g, after, through⟩ := inside
  have some_ : ts ≠ [] := by
    rintro rfl
    cases through
  refine parse_insert calm calm' text text' spaces spaces' after some_ lexes (fun s first => ?_) parsed
  cases through.symm.trans first
  exact run_malformed malformed

def plainGame : Bytes := Bytes.ofString "game(name g)"

def badRom : Bytes := Bytes.ofString "rom(sha1 - name x crc zz(game)size \"(\" rom)"

def badRomFields : List Token :=
  [⟨.keyword .sha1, "sha1", 0⟩, ⟨.bare, "-", 0⟩, ⟨.keyword .name, "name", 0⟩, ⟨.bare, "x", 0⟩]

def badRomRest : List Token :=
  [⟨.openBrace, "(", 0⟩, ⟨.keyword .game, "game", 0⟩, ⟨.closeBrace, ")", 0⟩, ⟨.keyword .size, "size", 0⟩,
    ⟨.quoted, "(", 0⟩, ⟨.keyword .rom, "rom", 0⟩]

def badRomTokens : List Token :=
  ⟨.keyword .rom, "rom", 0⟩ :: ⟨.openBrace, "(", 0⟩ :: (badRomFields ++ ⟨.keyword .crc, "crc", 0⟩ ::
    ⟨.bare, "zz", 0⟩ :: (badRomRest ++ [⟨.closeBrace, ")", 0⟩]))

theorem malformed_badRom : MalformedRom badRomTokens := by
  have absent : Coercion.hash HashField.sha1.digits "-" = .ok none := by
    decide +kernel
  have refused : Coercion.hash HashField.crc.digits "zz" = .error ⟨"zz", .symbol 6⟩ := by
    decide +kernel
  have sound : RomFields badRomFields := .field rfl rfl ⟨rfl, none, absent⟩ (.field rfl rfl rfl .nil)
  have inside : Balanced [⟨.keyword .game, "game", 0⟩] := .other nofun nofun .nil
  have balanced : Balanced badRomRest :=
    .block rfl rfl inside (.other nofun nofun (.other nofun nofun (.other nofun nofun .nil)))
  exact .mk (h := .crc) rfl rfl sound rfl rfl rfl refused balanced rfl

theorem parse_badRom :
    parse (.whole (Bytes.ofString "game(name g rom(sha1 - name x crc zz(game)size \"(\" rom) )")) =
      .ok (⟨"", "", [⟨"g", "", [], [], [], []⟩], []⟩,
        Sha1.digest (Bytes.ofString "game(name g rom(sha1 - name x crc zz(game)size \"(\" rom) )")) := by
  have space : Spaces [32] := by
    refine ⟨List.cons_ne_nil _ _, fun b member => ?_⟩
    rw [List.mem_singleton.mp member]
    rfl
  have front : Lexer.Scans (Lexer.unmarked (Bytes.ofString "game(name g" ++ Bytes.ofString ")"))
      [⟨.keyword .game, "game", 0⟩, ⟨.openBrace, "(", 0⟩, ⟨.keyword .name, "name", 0⟩, ⟨.bare, "g", 0⟩]
      (Bytes.ofString ")") :=
    Lexer.scans_of_take? (n := 4) (by decide +kernel)
  have inside : InGame (Bytes.ofString "game(name g") (Bytes.ofString ")") :=
    ⟨_, .blank, { Game.blank with name := "g" }, ⟨[], nofun, front⟩, by decide +kernel⟩
  have lexes : Lexer.Lexes badRom badRomTokens :=
    ⟨[], Lexer.scans_of_take? (n := 15) (by decide +kernel), nofun⟩
  have parsed : parse (.whole plainGame) =
      .ok (⟨"", "", [⟨"g", "", [], [], [], []⟩], []⟩, Sha1.digest plainGame) := by
    decide +kernel
  exact parse_malformed_rom (f := .whole plainGame) rfl rfl (by decide +kernel) (by decide +kernel) space space
    inside lexes malformed_badRom parsed

end RomLedger.Clr
