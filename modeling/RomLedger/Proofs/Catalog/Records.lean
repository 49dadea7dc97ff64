import RomLedger.Markup.Datafile
import RomLedger.Proofs.Clr.Printing
import RomLedger.Proofs.Clr.Rendering

/-!
The same records read as text and as markup. Markup leaves every record with its name, its size and the hashes
that are well formed. Text leaves out a record as a whole if one of its hashes is malformed, and gives the
others as markup does, in the same order.
-/
namespace RomLedger

namespace Markup.RomDraft

/-- Texts that can be quoted. -/
structure Quotable (d : RomDraft) : Prop where
  name : Clr.Quotable d.name
  crc : ∀ s ∈ d.crc, Clr.Quotable s
  md5 : ∀ s ∈ d.md5, Clr.Quotable s
  sha1 : ∀ s ∈ d.sha1, Clr.Quotable s

end Markup.RomDraft

namespace Clr

open Markup (RomDraft decodeHash)

namespace HashField

def word : HashField → String
  | .crc => "crc"
  | .md5 => "md5"
  | .sha1 => "sha1"

def keyword : HashField → Keyword
  | .crc => .crc
  | .md5 => .md5
  | .sha1 => .sha1

/-- The hash as it is written in a record. -/
def text (d : RomDraft) : HashField → Option String
  | .crc => d.crc
  | .md5 => d.md5
  | .sha1 => d.sha1

def clear (d : RomDraft) : HashField → RomDraft
  | .crc => { d with crc := none }
  | .md5 => { d with md5 := none }
  | .sha1 => { d with sha1 := none }

def get (r : Rom) : HashField → Option Bytes
  | .crc => r.crc
  | .md5 => r.md5
  | .sha1 => r.sha1

/-- Whether a hash is there and malformed. -/
def refuses (h : HashField) (text : Option String) : Bool :=
  match text with
  | none => false
  | some s =>
    match Coercion.hash h.digits s with
    | .ok _ => false
    | .error _ => true

end HashField

def sound (d : RomDraft) : Bool :=
  !(HashField.crc.refuses d.crc || HashField.md5.refuses d.md5 || HashField.sha1.refuses d.sha1)

def hashLexemes (h : HashField) (text : Option String) : List Lexeme :=
  match text with
  | none => []
  | some s => field h.word (.quoted s)

def recordLexemes (d : RomDraft) : List Lexeme :=
  block "rom" (field "name" (.quoted d.name) ++ field "size" (.quoted (toString d.size.toNat)) ++
    hashLexemes .crc d.crc ++ hashLexemes .md5 d.md5 ++ hashLexemes .sha1 d.sha1)

/-- One game with all the records in it. -/
def recordsLexemes (ds : List RomDraft) : List Lexeme := block "game" (ds.flatMap recordLexemes)

def within (g : Game) : Option Rom → Mode
  | some r => .at_ (.rom g r)
  | none => .skipping 0 (.game g)

def HashField.enter (h : HashField) (text : Option String) (r : Rom) : Option Rom :=
  match text with
  | none => some r
  | some s =>
    match Coercion.hash h.digits s with
    | .ok b => some (h.set r b)
    | .error _ => none

def recordRom? (d : RomDraft) : Option Rom :=
  (((HashField.crc.enter d.crc ⟨d.name, d.size, none, none, none⟩).bind (HashField.md5.enter d.md5)).bind
    (HashField.sha1.enter d.sha1))

variable {c : Catalog} {g : Game} {o : Option Rom} {h : HashField} {s w : String} {t : Token} {d : RomDraft}

theorem word_mem_keywords (h : HashField) : (h.word, h.keyword) ∈ keywords := by
  cases h <;> decide

theorem field?_keyword (g : Game) (r : Rom) (h : HashField) :
    (Place.rom g r).field? h.keyword = some (.hash h) := by
  cases h <;> rfl

theorem stepValue_quotedHash {r : Rom} (read : (Lexeme.quoted s).Read t) :
    stepValue c (.hash h) (.rom g r) t = .ok ⟨c, within g (h.enter (some s) r)⟩ := by
  obtain ⟨kind, rfl⟩ := read
  simp only [stepValue, kind, HashField.enter]
  unfold setHash
  cases Coercion.hash h.digits t.text <;> rfl

theorem takes_hashLexemes (text : Option String) :
    Takes (hashLexemes h text) ⟨c, within g o⟩ ⟨c, within g (o.bind (h.enter text))⟩ := by
  cases text with
  | none =>
    have same : o.bind (h.enter none) = o := by
      cases o <;> rfl
    rw [same]
    exact .nil
  | some s =>
    cases o with
    | some r => exact takes_field (word_mem_keywords h) (field?_keyword g r h) fun _ => stepValue_quotedHash
    | none =>
      have named : ∀ t, (Lexeme.word h.word).Read t →
          step ⟨c, .skipping 0 (.game g)⟩ t = .ok ⟨c, .skipping 0 (.game g)⟩ := by
        rintro t ⟨kind, -⟩
        simp only [step, stepSkipping, kind.trans (classify_keyword (word_mem_keywords h))]
      have passed : ∀ t, (Lexeme.quoted s).Read t →
          step ⟨c, .skipping 0 (.game g)⟩ t = .ok ⟨c, .skipping 0 (.game g)⟩ := by
        rintro t ⟨kind, -⟩
        simp only [step, stepSkipping, kind]
      exact .cons named (.cons passed .nil)

theorem takes_quotedSize {r : Rom} {n : UInt64} :
    Takes (field "size" (.quoted (toString n.toNat))) ⟨c, .at_ (.rom g r)⟩
      ⟨c, .at_ (.rom g { r with size := n })⟩ := by
  apply takes_field (k := .size) (by decide) rfl
  rintro t ⟨kind, text⟩
  simp only [stepValue, kind, text, Coercion.size_toString]
  rfl

theorem takes_romEnd :
    Takes [.close] ⟨c, within g o⟩ ⟨c, .at_ (.game { g with roms := g.roms ++ o.toList })⟩ := by
  cases o with
  | some r => exact takes_close
  | none =>
    have closed : ∀ t, Lexeme.close.Read t →
        step ⟨c, .skipping 0 (.game g)⟩ t = .ok ⟨c, .at_ (.game { g with roms := g.roms ++ [] })⟩ := by
      intro t kind
      rw [Lexeme.Read] at kind
      simp only [step, stepSkipping, kind, List.append_nil]
    exact .cons closed .nil

theorem takes_record (d : RomDraft) :
    Takes (recordLexemes d) ⟨c, .at_ (.game g)⟩
      ⟨c, .at_ (.game { g with roms := g.roms ++ (recordRom? d).toList })⟩ := by
  have opening := takes_opening (c := c) (w := "rom") (k := .rom) (p := .game g) (by decide) rfl rfl
  have name := takes_name (c := c) (w := d.name) (p := .rom g .blank) rfl
  have size := name.append (takes_quotedSize (n := d.size))
  have crc := size.append (takes_hashLexemes (o := some _) (h := .crc) d.crc)
  have md5 := crc.append (takes_hashLexemes (h := .md5) d.md5)
  have sha1 := md5.append (takes_hashLexemes (h := .sha1) d.sha1)
  exact opening.append (sha1.append takes_romEnd)

theorem takes_records (ds : List RomDraft) :
    Takes (ds.flatMap recordLexemes) ⟨c, .at_ (.game g)⟩
      ⟨c, .at_ (.game { g with roms := g.roms ++ ds.filterMap recordRom? })⟩ := by
  induction ds generalizing g with
  | nil =>
    rw [List.filterMap_nil, List.append_nil]
    exact .nil
  | cons d ds ih =>
    have others := (takes_record (c := c) (g := g) d).append ih
    have kept : (d :: ds).filterMap recordRom? = (recordRom? d).toList ++ ds.filterMap recordRom? := by
      rw [List.filterMap_cons]
      cases recordRom? d <;> rfl
    rw [kept]
    rwa [List.append_assoc] at others

theorem takes_game_of_records (ds : List RomDraft) :
    Takes (recordsLexemes ds) .start
      ⟨{ Catalog.blank with games := [{ Game.blank with roms := ds.filterMap recordRom? }] }, .at_ .top⟩ :=
  takes_block (k := .game) (p := .top) (by decide) rfl rfl (takes_records ds)

theorem set_get (h : HashField) (r : Rom) : h.set r (h.get r) = r := by
  cases h <;> rfl

theorem enter_eq {r : Rom} (absent : h.get r = none) (text : Option String) :
    h.enter text r = if h.refuses text then none else some (h.set r (decodeHash h.digits text)) := by
  cases text with
  | none =>
    have same : h.set r none = r := by rw [← absent, set_get]
    simp only [HashField.enter, HashField.refuses, decodeHash, same]
    rfl
  | some s =>
    cases understood : Coercion.hash h.digits s <;>
      simp [HashField.enter, HashField.refuses, decodeHash, understood]

theorem recordRom?_eq (d : RomDraft) : recordRom? d = if sound d then some d.toRom else none := by
  unfold recordRom? sound
  rw [enter_eq rfl]
  cases HashField.crc.refuses d.crc with
  | true => rfl
  | false =>
    simp only [Bool.false_eq_true, ↓reduceIte, Option.bind_some, Bool.false_or]
    rw [enter_eq rfl]
    cases HashField.md5.refuses d.md5 with
    | true => rfl
    | false =>
      simp only [Bool.false_eq_true, ↓reduceIte, Option.bind_some, Bool.false_or]
      rw [enter_eq rfl]
      cases HashField.sha1.refuses d.sha1 <;> rfl

theorem filterMap_recordRom? (ds : List RomDraft) :
    ds.filterMap recordRom? = (ds.filter sound).map RomDraft.toRom := by
  induction ds with
  | nil => rfl
  | cons d ds ih =>
    rw [List.filterMap_cons, recordRom?_eq, List.filter_cons, ih]
    cases sound d <;> rfl

theorem decodeHash_of_refuses {text : Option String} (refused : h.refuses text = true) :
    decodeHash h.digits text = none := by
  cases text with
  | none => rfl
  | some s =>
    cases understood : Coercion.hash h.digits s with
    | ok b => simp [HashField.refuses, understood] at refused
    | error e => simp [decodeHash, understood]

theorem get_toRom (h : HashField) (d : RomDraft) : h.get d.toRom = decodeHash h.digits (h.text d) := by
  cases h <;> rfl

theorem toRom_clear (h : HashField) (d : RomDraft) : (h.clear d).toRom = h.set d.toRom none := by
  cases h <;> rfl

theorem toRom_of_refuses (refused : h.refuses (h.text d) = true) :
    h.get d.toRom = none ∧ (h.clear d).toRom = d.toRom := by
  have lost : h.get d.toRom = none := (get_toRom h d).trans (decodeHash_of_refuses refused)
  refine ⟨lost, ?_⟩
  rw [toRom_clear, ← lost, set_get]

theorem get_normalize (h : HashField) (r : Rom) : h.get r.normalize = h.get r := by
  cases h <;> rfl

theorem quotable_size (n : UInt64) : Quotable (toString n.toNat) := by
  intro last
  have digit := Coercion.isDigit_toString (List.mem_of_getLast? last)
  cases digit

theorem proper_hashLexemes {text : Option String} (quotable : ∀ s ∈ text, Quotable s) :
    ∀ x ∈ hashLexemes h text, x.Proper := by
  cases text with
  | none =>
    intro x member
    cases member
  | some s => exact proper_quoted (word_mem_keywords h) (quotable s rfl)

theorem proper_record (quotable : d.Quotable) : ∀ x ∈ recordLexemes d, x.Proper := by
  apply proper_block (k := .rom) (by decide)
  intro x member
  simp only [List.mem_append] at member
  rcases member with (((name | size) | crc) | md5) | sha1
  · exact proper_quoted (k := .name) (by decide) quotable.name x name
  · exact proper_quoted (k := .size) (by decide) (quotable_size d.size) x size
  · exact proper_hashLexemes quotable.crc x crc
  · exact proper_hashLexemes quotable.md5 x md5
  · exact proper_hashLexemes quotable.sha1 x sha1

theorem proper_records {ds : List RomDraft} (quotable : ∀ d ∈ ds, d.Quotable) :
    ∀ x ∈ recordsLexemes ds, x.Proper := by
  apply proper_block (k := .game) (by decide)
  intro x member
  obtain ⟨d, among, inside⟩ := List.mem_flatMap.mp member
  exact proper_record (quotable d among) x inside

/-- Text keeps of the records what markup makes of them, but for those with a malformed hash; and in markup a
record with a malformed hash is the record without that hash. -/
theorem parse_records {f : Feed} {ds : List RomDraft} {ts : List Token} (calm : f.failing = false)
    (quotable : ∀ d ∈ ds, d.Quotable) (reads : List.Forall₂ (fun x t => x.Read t) (recordsLexemes ds) ts)
    (print : Print ts f.rest) :
    parse f = .ok (⟨"", "", [⟨"", "", (ds.filter sound).map fun d => d.toRom.normalize, [], [], []⟩], []⟩,
        Sha1.digest f.rest) ∧
      ∀ d ∈ ds, ∀ h : HashField, h.refuses (h.text d) = true →
        h.get d.toRom.normalize = none ∧ (h.clear d).toRom.normalize = d.toRom.normalize := by
  constructor
  · have through := run_of_takes (takes_game_of_records ds) reads
    have lexes : Lexer.Lexes f.rest ts :=
      Lexer.lexes_of_print print (quotable_of_reads reads (proper_records quotable))
    have unmarked : Lexer.unmarked f.rest = f.rest := by
      apply Lexer.unmarked_of_head
      cases reads with
      | cons front later => exact head_of_print (keywords_proper ("game", .game) (by decide)) front print
    have normal : ({ Catalog.blank with games := [{ Game.blank with roms := ds.filterMap recordRom? }] } :
        Catalog).normalize =
          ⟨"", "", [⟨"", "", (ds.filter sound).map fun d => d.toRom.normalize, [], [], []⟩], []⟩ := by
      rw [filterMap_recordRom?]
      simp only [Catalog.normalize, Catalog.blank, Game.blank, Game.normalize, List.map_cons, List.map_nil,
        List.map_map]
      rfl
    rw [← unmarked] at lexes
    exact (parse_iff calm).mpr ⟨rfl, ts, _, lexes, through, normal⟩
  · intro d _ h refused
    obtain ⟨lost, same⟩ := toRom_of_refuses refused
    rw [get_normalize, same]
    exact ⟨lost, rfl⟩

def twoRecords : List RomDraft :=
  [⟨"it's a\tb", 1, some "zz", some "-", none⟩, ⟨"c\\d.bin", 18446744073709551615, some " 1a2b ", none, some ""⟩]

def twoRecordsText : String :=
  "game ( rom ( name 'it\\'s\\ a\\\tb' size '1' crc 'zz' md5 '-' ) rom ( name 'c\\d.bin' " ++
    "size '18446744073709551615' crc '\\ 1a2b\\ ' sha1 '' ) ) "

theorem quotable_twoRecords : ∀ d ∈ twoRecords, d.Quotable := by
  intro d member
  simp only [twoRecords, List.mem_cons, List.not_mem_nil, or_false] at member
  rcases member with rfl | rfl
  · exact ⟨by decide, by decide, by decide, by decide⟩
  · exact ⟨by decide, by decide, by decide, by decide⟩

theorem parse_twoRecords : parse (.steady (Bytes.ofString twoRecordsText) (some 5) none) =
    .ok (⟨"", "", [⟨"", "", [⟨"c/d.bin", 18446744073709551615, some [0, 0, 0x1a, 0x2b], none, none⟩], [], [], []⟩],
      []⟩, Sha1.digest (Bytes.ofString twoRecordsText)) := by
  obtain ⟨reads, print⟩ := print_lexemes (d := 39) rfl (proper_records quotable_twoRecords)
  have text : ((recordsLexemes twoRecords).map (Lexeme.bytes 39)).flatMap (· ++ [32]) =
      Bytes.ofString twoRecordsText := by
    decide +kernel
  have kept : ((twoRecords.filter sound).map fun d => d.toRom.normalize) =
      [⟨"c/d.bin", 18446744073709551615, some [0, 0, 0x1a, 0x2b], none, none⟩] := by
    decide +kernel
  rw [text] at print
  generalize Bytes.ofString twoRecordsText = bytes at print ⊢
  rw [← kept]
  exact (parse_records (f := .steady bytes (some 5) none) rfl quotable_twoRecords reads print).1

end Clr
end RomLedger
