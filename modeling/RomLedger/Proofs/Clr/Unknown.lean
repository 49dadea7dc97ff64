import RomLedger.Proofs.Clr.Dropping

/-!
What the grammar does not know is passed over. A block behind an unknown word is skipped as one unit wherever
a statement or a field may begin, whatever stands in it, as long as its parentheses match. An unknown word is
skipped alone: the token behind it is not taken for its value, but is read as any other token at that place.
-/
namespace RomLedger.Clr

def Mode.isIdle : Mode → Bool
  | .at_ _ | .skipping _ _ => true
  | .opening _ | .value _ _ => false

/-- The text at the front and the back together is read from its first token up to the back, and leaves the
statements in a state in which another one may begin. -/
structure Between (front back : Bytes) (s : State) : Prop where
  idle : s.mode.isIdle = true
  read : ∃ ts, ts ≠ [] ∧ After front ts back ∧ run .start ts = .ok s

inductive UnknownBlock : List Token → Prop
  | mk {w o e : Token} {inside : List Token} (word : w.kind = .bare) (opens : o.kind = .openBrace)
      (balanced : Balanced inside) (closes : e.kind = .closeBrace) : UnknownBlock (w :: o :: (inside ++ [e]))

def Place.knows (p : Place) (k : Keyword) : Bool := (p.field? k).isSome || (p.block? k).isSome

def State.ignores (s : State) (k : Kind) : Bool :=
  match s.mode, k with
  | .at_ p, .keyword k => !p.knows k
  | _, _ => true

variable {s : State} {c : Catalog} {front back : Bytes} {ts its : List Token} {w v : Token}

theorem step_word (idle : s.mode.isIdle = true) (word : w.kind = .bare) : step s w = .ok s := by
  obtain ⟨c, mode⟩ := s
  cases mode with
  | at_ p => simp only [step, stepAt, word]
  | skipping d p => simp only [step, stepSkipping, word]
  | opening p => cases idle
  | value f p => cases idle

theorem run_block {o e : Token} (idle : s.mode.isIdle = true) (opens : o.kind = .openBrace)
    (balanced : Balanced ts) (closes : e.kind = .closeBrace) : run s (o :: (ts ++ [e])) = .ok s := by
  obtain ⟨c, mode⟩ := s
  cases mode with
  | at_ p => exact run_unknown opens balanced closes
  | skipping d p =>
    apply run_skipping
    exact .block opens closes balanced .nil
  | opening p => cases idle
  | value f p => cases idle

theorem run_unknown_block (idle : s.mode.isIdle = true) (unknown : UnknownBlock its) : run s its = .ok s := by
  obtain ⟨word, opens, balanced, closes⟩ := unknown
  exact run_cons.mpr ⟨s, step_word idle word, run_block idle opens balanced closes⟩

theorem knows_eq_false_iff {p : Place} {k : Keyword} :
    p.knows k = false ↔ p.field? k = none ∧ p.block? k = none := by
  simp [Place.knows]

theorem stepAt_keyword_iff {p : Place} {k : Keyword} (keyword : v.kind = .keyword k) :
    stepAt c p v = ⟨c, .at_ p⟩ ↔ p.knows k = false := by
  rw [knows_eq_false_iff]
  simp only [stepAt, keyword]
  cases p.field? k with
  | some f => simp
  | none =>
    cases p.block? k with
    | some q => simp
    | none => simp

theorem step_eq_iff (idle : s.mode.isIdle = true) (value : v.kind.isText = true) :
    step s v = .ok s ↔ s.ignores v.kind = true := by
  obtain ⟨c, mode⟩ := s
  cases mode with
  | at_ p =>
    rcases Kind.isText_iff.mp value with kind | kind | ⟨k, kind⟩
    · simp [step, stepAt, State.ignores, kind]
    · simp [step, stepAt, State.ignores, kind]
    · simp [step, stepAt_keyword_iff kind, State.ignores, kind]
  | skipping d p =>
    rcases Kind.isText_iff.mp value with kind | kind | ⟨k, kind⟩ <;>
      simp [step, stepSkipping, State.ignores, kind]
  | opening p => cases idle
  | value f p => cases idle

theorem run_singleton {s' : State} : run s [v] = .ok s' ↔ step s v = .ok s' := by
  rw [run_cons]
  simp [run]

theorem run_word (idle : s.mode.isIdle = true) (word : w.kind = .bare) : run s (w :: ts) = run s ts := by
  rw [run, step_word idle word]

section

variable {f f' : Feed} {gap gap' ins x : Bytes}

/-- Wherever a statement or a field may begin, an unknown block can be put in, and the catalog stays the same. -/
theorem parse_unknown_block (calm : f.failing = false) (calm' : f'.failing = false)
    (text : f.rest = front ++ back) (text' : f'.rest = front ++ (gap ++ ins ++ gap') ++ back)
    (spaces : Spaces gap) (spaces' : Spaces gap') (between : Between front back s)
    (lexes : Lexer.Lexes ins its) (unknown : UnknownBlock its) (parsed : parse f = .ok (c, x)) :
    parse f' = .ok (c, Sha1.digest f'.rest) := by
  obtain ⟨ts, some_, after, through⟩ := between.read
  have neutral : ∀ s', run .start ts = .ok s' → run s' its = .ok s' := by
    intro s' first
    cases through.symm.trans first
    exact run_unknown_block between.idle unknown
  exact parse_insert calm calm' text text' spaces spaces' after some_ lexes neutral parsed

def romText : Bytes := Bytes.ofString "game(name g rom(name r))"

def romCatalog : Catalog := ⟨"", "", [⟨"g", "", [⟨"r", 0, none, none, none⟩], [], [], []⟩], []⟩

def oddBlock : Bytes := Bytes.ofString "x(rom(crc zz)\")\\\"\"size)"

def oddInside : List Token :=
  [⟨.keyword .rom, "rom", 0⟩, ⟨.openBrace, "(", 0⟩, ⟨.keyword .crc, "crc", 0⟩, ⟨.bare, "zz", 0⟩,
    ⟨.closeBrace, ")", 0⟩, ⟨.quoted, ")\"", 0⟩, ⟨.keyword .size, "size", 0⟩]

theorem balanced_oddInside : Balanced oddInside := by
  have fields : Balanced [⟨.keyword .crc, "crc", 0⟩, ⟨.bare, "zz", 0⟩] := .other nofun nofun (.other nofun nofun .nil)
  have behind : Balanced [⟨.quoted, ")\"", 0⟩, ⟨.keyword .size, "size", 0⟩] :=
    .other nofun nofun (.other nofun nofun .nil)
  exact .other nofun nofun (.block rfl rfl fields behind)

theorem spaces_single : Spaces [32] := by
  refine ⟨List.cons_ne_nil _ _, fun b member => ?_⟩
  rw [List.mem_singleton.mp member]
  rfl

theorem between_romText : Between (Bytes.ofString "game(name g rom(name r") (Bytes.ofString "))")
    ⟨.blank, .at_ (.rom { Game.blank with name := "g" } { Rom.blank with name := "r" })⟩ := by
  have front : Lexer.Scans (Lexer.unmarked (Bytes.ofString "game(name g rom(name r" ++ Bytes.ofString "))"))
      [⟨.keyword .game, "game", 0⟩, ⟨.openBrace, "(", 0⟩, ⟨.keyword .name, "name", 0⟩, ⟨.bare, "g", 0⟩,
        ⟨.keyword .rom, "rom", 0⟩, ⟨.openBrace, "(", 0⟩, ⟨.keyword .name, "name", 0⟩, ⟨.bare, "r", 0⟩]
      (Bytes.ofString "))") :=
    Lexer.scans_of_take? (n := 8) (by decide +kernel)
  exact ⟨rfl, _, List.cons_ne_nil _ _, ⟨[], nofun, front⟩, by decide +kernel⟩

theorem parse_romText : parse (.whole romText) = .ok (romCatalog, Sha1.digest romText) :=
  parse_of_read (by decide +kernel)

theorem parse_oddBlock :
    parse (.whole (Bytes.ofString "game(name g rom(name r x(rom(crc zz)\")\\\"\"size) ))")) =
      .ok (romCatalog,
        Sha1.digest (Bytes.ofString "game(name g rom(name r x(rom(crc zz)\")\\\"\"size) ))")) := by
  have lexes : Lexer.Lexes oddBlock
      (⟨.bare, "x", 0⟩ :: ⟨.openBrace, "(", 0⟩ :: (oddInside ++ [⟨.closeBrace, ")", 0⟩])) :=
    ⟨[], Lexer.scans_of_take? (n := 10) (by decide +kernel), nofun⟩
  exact parse_unknown_block (f := .whole romText) rfl rfl (by decide +kernel) (by decide +kernel) spaces_single
    spaces_single between_romText lexes (.mk rfl rfl balanced_oddInside rfl) parse_romText

/-- An unknown word can be put in with a token that may be a text behind it, and the catalog stays the same,
unless that token is a keyword that begins a field or a block there. In any case the statements go on as they
would behind that token alone. -/
theorem parse_unknown_field (calm : f.failing = false) (calm' : f'.failing = false)
    (text : f.rest = front ++ back) (text' : f'.rest = front ++ (gap ++ ins ++ gap') ++ back)
    (spaces : Spaces gap) (spaces' : Spaces gap') (between : Between front back s)
    (lexes : Lexer.Lexes ins [w, v]) (word : w.kind = .bare) (value : v.kind.isText = true)
    (parsed : parse f = .ok (c, x)) :
    run s [w, v] = run s [v] ∧ (run s [v] = .ok s ↔ s.ignores v.kind = true) ∧
      (s.ignores v.kind = true → parse f' = .ok (c, Sha1.digest f'.rest)) := by
  have alone : run s [w, v] = run s [v] := run_word between.idle word
  have same : run s [v] = .ok s ↔ s.ignores v.kind = true := by
    rw [run_singleton]
    exact step_eq_iff between.idle value
  refine ⟨alone, same, fun ignored => ?_⟩
  obtain ⟨ts, some_, after, through⟩ := between.read
  have neutral : ∀ s', run .start ts = .ok s' → run s' [w, v] = .ok s' := by
    intro s' first
    cases through.symm.trans first
    exact alone.trans (same.mpr ignored)
  exact parse_insert calm calm' text text' spaces spaces' after some_ lexes neutral parsed

theorem parse_unknownField :
    parse (.whole (Bytes.ofString "game(name g rom(name r year game ))")) =
      .ok (romCatalog, Sha1.digest (Bytes.ofString "game(name g rom(name r year game ))")) := by
  have lexes : Lexer.Lexes (Bytes.ofString "year game") [⟨.bare, "year", 0⟩, ⟨.keyword .game, "game", 0⟩] :=
    ⟨[], Lexer.scans_of_take? (n := 2) (by decide +kernel), nofun⟩
  have whole : Bytes.ofString "game(name g rom(name r year game ))" =
      Bytes.ofString "game(name g rom(name r" ++ ([32] ++ Bytes.ofString "year game" ++ [32]) ++
        Bytes.ofString "))" := by
    decide +kernel
  exact (parse_unknown_field (f := .whole romText) rfl rfl (by decide +kernel) whole spaces_single spaces_single
    between_romText lexes rfl rfl parse_romText).2.2 rfl

theorem misread_unknown_field :
    parse (.whole (Bytes.ofString "game(name g description d)")) =
        .ok (⟨"", "", [⟨"g", "d", [], [], [], []⟩], []⟩,
          Sha1.digest (Bytes.ofString "game(name g description d)")) ∧
      parse (.whole (Bytes.ofString "game(name g year name description d)")) =
        .ok (⟨"", "", [⟨"description", "", [], [], [], []⟩], []⟩,
          Sha1.digest (Bytes.ofString "game(name g year name description d)")) ∧
      (parse (.whole (Bytes.ofString "game(name g year rom )"))).isOk = false := by
  refine ⟨?_, ?_, ?_⟩ <;> decide +kernel

end

end RomLedger.Clr
