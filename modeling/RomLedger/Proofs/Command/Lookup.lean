import RomLedger.Command.Lookup
import RomLedger.Proofs.Catalog.Hashes
import RomLedger.Proofs.Index.Lookup
import RomLedger.Proofs.Work.Exact

/-!
Hashes of a refreshed catalog, looked up from the texts that stand in its file. A catalog may leave zeros in
front of a hash away, but a lookup tells the kind of a hash from its length, so that the zeros have to be
written out there. A text that is complete finds the catalog, whatever the case of its letters; one that has
not the length of any kind of hash is refused.
-/
namespace RomLedger

namespace Hex

variable {cs ds : List Char}

theorem isDigit_toLower (c : Char) : isDigit c.toLower = isDigit c := by
  grind [isDigit, Char.toLower, Char.isDigit, Char.isUpper]

theorem value_toLower (c : Char) : value c.toLower = value c := by
  grind [value, Char.toLower, Char.isDigit, Char.isUpper]

theorem number_alike (alike : cs.map Char.toLower = ds.map Char.toLower) : number cs = number ds := by
  have lower (es : List Char) : es.map value = (es.map Char.toLower).map value := by
    rw [List.map_map]
    exact List.map_congr_left fun c _ => (value_toLower c).symm
  rw [number, number, lower cs, lower ds, alike]

theorem isDigit_alike (alike : cs.map Char.toLower = ds.map Char.toLower) (digits : ∀ d ∈ ds, isDigit d = true) :
    ∀ c ∈ cs, isDigit c = true := by
  intro c member
  have lower : c.toLower ∈ ds.map Char.toLower := alike ▸ List.mem_map_of_mem member
  obtain ⟨d, known, same⟩ := List.mem_map.mp lower
  rw [← isDigit_toLower, ← same, isDigit_toLower]
  exact digits d known

end Hex

open Clr (HashField)

namespace Index

variable {i : Index} {x : Bytes} {c : Catalog} {g : Game} {r wanted : Rom}

theorem mem_catalogsFor_iff (current : i.isOrphaned x = some false) (held : i.get? x = some c)
    (fits : (Wanted.ofRom wanted).check = .ok ()) :
    ∃ cs, i.catalogsFor wanted = .ok cs ∧ (c ∈ cs ↔ c.References wanted) := by
  rw [← get?_shelf] at held
  obtain ⟨v, found, rfl⟩ := Option.map_eq_some_iff.mp held
  rw [← isOrphaned_shelf, Shelf.isOrphaned, found] at current
  rw [catalogsFor_eq, fits]
  refine ⟨_, rfl, fun member => ?_, fun refers => ?_⟩
  · obtain ⟨u, inside, same⟩ := List.mem_map.mp member
    have refers := (List.mem_filter.mp inside).2
    rw [same, Bool.and_eq_true, decide_eq_true_eq] at refers
    exact refers.2
  · refine List.mem_map_of_mem (List.mem_filter.mpr ⟨List.mem_of_find?_eq_some found, ?_⟩)
    simp only [Option.some.inj current, refers, Bool.not_false, decide_true, Bool.and_self]

theorem Consistent.fits (sound : i.Consistent) (held : i.get? x = some c) (game : g ∈ c.allGames)
    (file : r ∈ g.allRoms) : r.size.toNat ≤ Numeral.max63 := by
  obtain ⟨row, -, rfl⟩ := Option.map_eq_some_iff.mp held
  obtain ⟨y, -, -, rfl⟩ := (mem_allGames_catalog i row g).mp game
  obtain ⟨z, member, -, rfl⟩ := (mem_allRoms_game i y r).mp file
  exact sound.sizes z member

end Index

namespace Refresh

variable {σ : Type} {d : Disk σ} {root p : Path} {o : Options} {i : Index} {s : Crew.State Worker Index Fault}
  {size : UInt64} {c : Catalog} {x : Bytes}

theorem current_of_result {counts : Counts} (finished : Finished d root o i s) (good : s.result = .ok counts)
    (completed : .completed p size ∈ s.events) (parsed : Source.parseFile d p = .ok (c, x)) :
    s.shared.isOrphaned x = some false := by
  obtain ⟨unfaulted, -⟩ := Crew.result_ok_iff.mp good
  obtain ⟨committed, lost, applied, perm, -, calm⟩ := finished.settled
  obtain ⟨rfl, -⟩ := calm unfaulted
  rw [List.append_nil] at perm
  have written : .catalog c x ∈ committed := perm.mem_iff.mp (catalog_mem_iff.mpr ⟨p, size, completed, parsed⟩)
  rw [isOrphaned_of_applied applied, if_pos (digest_mem_iff.mpr ⟨c, written⟩)]

theorem consistent_of_finished (sound : i.Consistent) (finished : Finished d root o i s) : s.shared.Consistent := by
  obtain ⟨committed, lost, applied, -⟩ := finished.settled
  exact Batch.applyAll_consistent (Index.consistent_orphanAll sound) applied

theorem get?_of_current (sound : i.Consistent) (finished : Finished d root o i s)
    (parsed : Source.parseFile d p = .ok (c, x)) (current : s.shared.isOrphaned x = some false)
    (known : ∀ c', i.get? x = some c' → c' = c) (apart : ¬Collides d s p) : s.shared.get? x = some c := by
  obtain ⟨committed, lost, applied, perm, -, -⟩ := finished.settled
  have written : x ∈ committed.filterMap Write.digest? := by
    by_contra unwritten
    rw [isOrphaned_of_applied applied, if_neg unwritten] at current
    split at current <;> cases current
  obtain ⟨c₀, first⟩ := digest_mem_iff.mp written
  -- the catalog that is stored is the first one committed under the digest, perhaps that of another file
  obtain ⟨c', found, member⟩ := findSome?_catalogFor? first
  rw [Batch.get?_applyAll (Index.consistent_orphanAll sound) applied x, Index.get?_orphanAll, found]
  cases before : i.get? x with
  | some c'' => rw [known c'' before, Option.some_or]
  | none =>
    obtain ⟨q, size', completed', parsed'⟩ :=
      catalog_mem_iff.mp (perm.mem_iff.mpr (List.mem_append_left lost member))
    obtain ⟨b, bytes, digest, -⟩ := Source.parseFile_ok parsed
    obtain ⟨b', bytes', digest', -⟩ := Source.parseFile_ok parsed'
    by_cases same : b = b'
    · subst same
      rw [Option.none_or, Source.parseFile_same bytes' bytes parsed' parsed]
    · exact absurd ⟨q, size', b, b', completed', bytes, bytes', same, digest.symm.trans digest'⟩ apart

end Refresh

namespace Command

variable {i : Index} {f : HashField} {width : Nat} {h u text : String} {b : Bytes} {size : Option UInt64}
  {n : UInt64} {c : Catalog} {r : Rom} {x : Bytes}

/-- The second text is the first one with the missing zeros in front, in letters of either case. -/
structure Completes (width : Nat) (h u : String) : Prop where
  short : (Text.trim h).length ≤ width
  alike : (Text.trim u).toList.map Char.toLower =
    (List.replicate (width - (Text.trim h).length) '0' ++ (Text.trim h).toList).map Char.toLower

/-- The hash is understood, and the catalog is one of those that are said to reference its file. -/
def Lists (i : Index) (size : Option UInt64) (text : String) (c : Catalog) : Prop :=
  ∃ b cs, hashBytes text = .ok b ∧ references i b size = .ok cs ∧ c ∈ cs ∧
    lookup i size text = (.out (text ++ ":") :: describeOwn i b ++ describeReferences cs, .ok ())

theorem completes_self (full : (Text.trim h).length = width) : Completes width h h := by
  refine ⟨Nat.le_of_eq full, ?_⟩
  rw [full, Nat.sub_self, List.replicate_zero, List.nil_append]

theorem hashBytes_ok_iff : hashBytes u = .ok b ↔
    (∀ c ∈ (Text.trim u).toList, Hex.isDigit c = true) ∧ Coercion.Denotes 0 (Text.trim u) b := by
  have bytes : Bytes.ofString (Text.trim u) = Coercion.padded 0 (Text.trim u) := by
    rw [Coercion.padded, Nat.zero_sub, List.replicate_zero, List.nil_append]
  rw [← Coercion.decode_padded_iff, ← bytes, hashBytes]
  cases Hex.decode (Bytes.ofString (Text.trim u)) <;> simp [Except.mapError]

theorem hashBytes_of_completes (completes : Completes width h u) (read : Coercion.hash width h = .ok (some b)) :
    2 * b.length = width ∧ hashBytes u = .ok b := by
  obtain ⟨-, digits, long, same⟩ := Coercion.hash_some_iff.mp read
  rw [Nat.max_eq_right completes.short] at long
  have count := congrArg List.length completes.alike
  rw [List.length_map, List.length_map, Coercion.length_padding, Nat.max_eq_right completes.short,
    String.length_toList] at count
  have number := Hex.number_alike completes.alike
  rw [Hex.number_zeros] at number
  refine ⟨long, hashBytes_ok_iff.mpr ⟨?_, ?_, same.trans number.symm⟩⟩
  · exact Hex.isDigit_alike completes.alike (Coercion.isDigit_padding.mpr digits)
  · rw [long, count, Nat.max_zero]

theorem hashBytes_of_long (long : width ≤ (Text.trim h).length) (read : Coercion.hash width h = .ok (some b)) :
    hashBytes h = .ok b := by
  obtain ⟨-, digits, count, same⟩ := Coercion.hash_some_iff.mp read
  refine hashBytes_ok_iff.mpr ⟨digits, ?_, same⟩
  rw [count, Nat.max_eq_left long, Nat.max_zero]

def wantedAs (f : HashField) (b : Bytes) (n : UInt64) : Rom :=
  match f with
  | .crc => { Rom.blank with size := n, crc := some b }
  | .md5 => { Rom.blank with md5 := some b }
  | .sha1 => { Rom.blank with sha1 := some b }

theorem wantedRom_of_length (long : 2 * b.length = f.digits) (sized : f = .crc → size = some n) :
    wantedRom b size = .ok (wantedAs f b n) := by
  cases f with
  | crc =>
    have count : b.length = 4 := Nat.mul_left_cancel (by decide) long
    simp [wantedRom, wantedAs, count, digestLength, sized rfl]
  | md5 =>
    have count : b.length = 16 := Nat.mul_left_cancel (by decide) long
    simp [wantedRom, wantedAs, count, digestLength]
  | sha1 =>
    have count : b.length = 20 := Nat.mul_left_cancel (by decide) long
    simp [wantedRom, wantedAs, count, digestLength]

theorem matches_wantedAs_iff : (wantedAs f b n).Matches r ↔ f.get r = some b ∧ (f = .crc → r.size = n) := by
  cases f <;> simp [wantedAs, Rom.Matches, HashField.get, Rom.blank]

theorem check_wantedAs (fits : f = .crc → n.toNat ≤ Numeral.max63) :
    (Index.Wanted.ofRom (wantedAs f b n)).check = .ok () := by
  cases f with
  | crc => exact (Index.storable_ok_iff n).mpr (fits rfl)
  | md5 | sha1 => rfl

theorem lists_iff (current : i.isOrphaned x = some false) (held : i.get? x = some c) (bytes : hashBytes u = .ok b)
    (long : 2 * b.length = f.digits) (sized : f = .crc → size = some n)
    (fits : f = .crc → n.toNat ≤ Numeral.max63) :
    (lookup i size u).2 = .ok () ∧ (Lists i size u c ↔
      ∃ g ∈ c.allGames, ∃ r ∈ g.allRoms, f.get r = some b ∧ (f = .crc → r.size = n)) := by
  obtain ⟨cs, found, member⟩ := Index.mem_catalogsFor_iff current held (check_wantedAs (b := b) fits)
  have known : references i b size = .ok cs := by
    simp only [references, wantedRom_of_length long sized, found, Except.mapError]
  have said : lookup i size u = (.out (u ++ ":") :: describeOwn i b ++ describeReferences cs, .ok ()) := by
    simp only [lookup, bytes, known]
  have listed : Lists i size u c ↔ c ∈ cs := by
    constructor
    · rintro ⟨b', cs', bytes', known', listed, -⟩
      cases bytes.symm.trans bytes'
      cases known.symm.trans known'
      exact listed
    · exact fun listed => ⟨b, cs, bytes, known, listed, said⟩
  refine ⟨congrArg Prod.snd said, listed.trans (member.trans ?_)⟩
  simp only [Catalog.References, matches_wantedAs_iff]

theorem lookup_refuses (i : Index) (size : Option UInt64)
    (other : (Text.trim h).length ∉ [Coercion.crcDigits, Coercion.md5Digits, Coercion.sha1Digits]) :
    ∃ fault, (lookup i size h).2 = .error fault := by
  cases bytes : hashBytes h with
  | error e => exact ⟨e, by simp only [lookup, bytes]⟩
  | ok b =>
    have long := (hashBytes_ok_iff.mp bytes).2.long
    rw [Nat.max_zero] at long
    simp only [← long, Coercion.crcDigits, Coercion.md5Digits, Coercion.sha1Digits, List.mem_cons,
      List.not_mem_nil, or_false, not_or] at other
    have unknown : wantedRom b size = .error (.noHash b.length) := by
      rw [wantedRom.eq_def, if_neg (by rw [digestLength]; omega), if_neg (by omega), if_neg (by omega)]
    exact ⟨.noHash b.length, by simp only [lookup, bytes, references, unknown]⟩

/-- Whatever file of catalogs was refreshed into the index: a hash of a file in it is found under its text,
completed to the length of its kind, in letters of either case, and so under the text itself if that is complete.
A text with more digits than its kind has is looked up as a hash of the kind that has as many, and finds the
catalog if this has a file with that hash. No text is found that has not the length of a hash. -/
theorem lookup_of_refreshed {σ : Type} {d : Disk σ} {root p : Path} {o : Refresh.Options}
    {s : Crew.State Refresh.Worker Index Refresh.Fault} {bytes : UInt64} (sound : i.Consistent)
    (finished : Refresh.Finished d root o i s) (completed : .completed p bytes ∈ s.events)
    (parsed : Source.parseFile d p = .ok (c, x)) (known : ∀ c', i.get? x = some c' → c' = c)
    (apart : ¬Refresh.Collides d s p) :
    (∀ counts, s.result = .ok counts → s.shared.isOrphaned x = some false) ∧
    (s.shared.isOrphaned x = some false → ∀ g ∈ c.allGames, ∀ r ∈ g.allRoms, ∀ (f : HashField) (h : String)
      (b : Bytes), f.get r = some b → Coercion.hash f.digits h = .ok (some b) →
      (∀ size, (f = .crc → size = some r.size) →
        (∀ u, Completes f.digits h u → Lists s.shared size u c) ∧
        ((Text.trim h).length = f.digits → Lists s.shared size h c)) ∧
      ∀ k : HashField, f.digits < k.digits → (Text.trim h).length = k.digits → ∀ size,
        (lookup s.shared size h).2 = .ok () ∧
        (Lists s.shared size h c ↔ ∃ g' ∈ c.allGames, ∃ r' ∈ g'.allRoms, k.get r' = some b)) ∧
    ∀ (h : String) (size : Option UInt64),
      (Text.trim h).length ∉ [Coercion.crcDigits, Coercion.md5Digits, Coercion.sha1Digits] →
        ∃ fault, (lookup s.shared size h).2 = .error fault := by
  refine ⟨fun counts good => Refresh.current_of_result finished good completed parsed, ?_,
    fun h size other => lookup_refuses s.shared size other⟩
  intro current g game r file f h b has read
  have held := Refresh.get?_of_current sound finished parsed current known apart
  constructor
  · intro size sized
    have small := (Refresh.consistent_of_finished sound finished).fits held game file
    have found (u : String) (completes : Completes f.digits h u) : Lists s.shared size u c := by
      obtain ⟨long, bytes⟩ := hashBytes_of_completes completes read
      exact (lists_iff current held bytes long sized fun _ => small).2.mpr ⟨g, game, r, file, has, fun _ => rfl⟩
    exact ⟨found, fun full => found h (completes_self full)⟩
  · intro k shorter long size
    -- no kind has fewer digits than a crc, so that no size is asked for
    have other : k ≠ .crc := by
      rintro rfl
      cases f <;> exact absurd shorter (by decide)
    have bytes := hashBytes_of_long (long ▸ Nat.le_of_lt shorter) read
    have count := (hashBytes_ok_iff.mp bytes).2.long
    rw [Nat.max_zero, long] at count
    have sizeless : k = .crc → size = some 0 := fun crc => absurd crc other
    have listed := lists_iff current held bytes count sizeless fun crc => absurd crc other
    simpa only [other, false_implies, and_true] using listed

section

open Refresh (crew finished_refresh)

def shortText : Bytes := Bytes.ofString "game(rom(crc 1a2b))"

def shortDisk : Disk Unit where
  entries := [(["t"], .dir), (["t", "a.dat"], .file shortText)]
  ahead := []
  here := []

def shortRom : Rom := { Rom.blank with crc := some [0, 0, 0x1a, 0x2b] }

def shortGame : Game := { Game.blank with roms := [shortRom] }

def shortCatalog : Catalog := { Catalog.blank with games := [shortGame] }

def shortPath : Path := ⟨"t", ["a.dat"]⟩

def shortRun : Crew.State Refresh.Worker Index Refresh.Fault :=
  (crew (Source.parseFile shortDisk) 0).work (.ofString "t") 1 [.directory ⟨"t", []⟩, .file shortPath 19] false
    Index.empty.orphanAll

theorem walk_shortDisk : shortDisk.walk (.ofString "t") = [.directory ⟨"t", []⟩, .file shortPath 19] := by
  have opens : shortDisk.open? (.ofString "t") = .ok (["t"], .dir) := rfl
  have files : shortDisk.children ["t"] = [("a.dat", shortText)].map fun f => (f.1, .file f.2) :=
    List.mergeSort_of_pairwise (by decide +kernel)
  exact Disk.walk_flat opens files

theorem refresh_shortDisk : Refresh.refresh shortDisk (.ofString "t") ⟨1, 0⟩ false .empty = .ok shortRun := by
  have directory : shortDisk.isDirectory (.ofString "t") = true := rfl
  simp only [Refresh.refresh, directory, walk_shortDisk, ↓reduceIte]
  rfl

theorem parse_shortDisk :
    Source.parseFile shortDisk shortPath = .ok (shortCatalog, Sha1.digest shortText) := by
  have text : Source.isMarkup shortText = false := by decide +kernel
  have parsed : Clr.parse (.whole shortText) = .ok (shortCatalog, Sha1.digest shortText) :=
    Clr.parse_of_read (by decide +kernel)
  have held : shortDisk.read shortPath = .ok shortText := rfl
  simp only [Source.parseFile, held, Source.parse, text, Bool.false_eq_true, ↓reduceIte, parsed, Except.mapError]

theorem result_shortRun : shortRun.result = .ok ⟨1, 1, 0, 19, false⟩ :=
  Crew.result_ok_iff.mpr (by decide +kernel)

theorem completed_shortRun : .completed shortPath 19 ∈ shortRun.events := by
  decide +kernel

theorem hash_short : Coercion.hash HashField.crc.digits "1a2b" = .ok (some [0, 0, 0x1a, 0x2b]) := by
  decide +kernel

/-- The lookup does not fill in the zeros that the catalog left out. -/
theorem short_crc_refused :
    Refresh.refresh shortDisk (.ofString "t") ⟨1, 0⟩ false .empty = .ok shortRun ∧
      shortRun.result = .ok ⟨1, 1, 0, 19, false⟩ ∧ .completed shortPath 19 ∈ shortRun.events ∧
      Source.parseFile shortDisk shortPath = .ok (shortCatalog, Sha1.digest shortText) ∧
      shortRom ∈ shortGame.allRoms ∧ shortGame ∈ shortCatalog.allGames ∧
      Coercion.hash HashField.crc.digits "1a2b" = .ok shortRom.crc ∧
      lookup shortRun.shared (some shortRom.size) "1a2b" = ([.out "1a2b:"], .error (.noHash 2)) :=
  ⟨refresh_shortDisk, result_shortRun, completed_shortRun, parse_shortDisk, List.mem_singleton_self shortRom,
    List.mem_singleton_self shortGame, hash_short, by decide +kernel⟩

theorem lookup_completed_short :
    Lists shortRun.shared (some 0) "00001A2B" shortCatalog ∧
      ∃ fault, (lookup shortRun.shared (some 0) "1a2b").2 = .error fault := by
  have only : ∀ e ∈ shortRun.events, ∀ f ∈ e.completed?, f.1 = shortPath := by decide +kernel
  have apart : ¬Refresh.Collides shortDisk shortRun shortPath := by
    rintro ⟨q, size, b, b', completed, bytes, bytes', differ, -⟩
    obtain rfl : q = shortPath := only _ completed (q, size) rfl
    exact differ (Except.ok.inj (bytes.symm.trans bytes'))
  obtain ⟨current, found, refused⟩ := lookup_of_refreshed Index.consistent_empty
    (finished_refresh refresh_shortDisk) completed_shortRun parse_shortDisk nofun apart
  have completes : Completes HashField.crc.digits "1a2b" "00001A2B" := ⟨by decide +kernel, by decide +kernel⟩
  refine ⟨?_, refused "1a2b" (some 0) (by decide +kernel)⟩
  exact ((found (current _ result_shortRun) shortGame (List.mem_singleton_self _) shortRom
    (List.mem_singleton_self _) .crc "1a2b" _ rfl hash_short).1 (some 0) fun _ => rfl).1 _ completes

end

end Command
end RomLedger
