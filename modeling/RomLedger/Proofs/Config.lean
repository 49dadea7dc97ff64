import Mathlib
import RomLedger.Config
import RomLedger.Proofs.Bytes.Utf8
import RomLedger.Proofs.Disk.Written
import RomLedger.Proofs.Json.Reading

/-!
Saving a configuration and loading it again. What is saved is an object with five fields. An object that is
made from it, with fewer of its fields, in any order and with others among them, is loaded as the
configuration with defaults in the places of the fields that are gone, however it is laid out and spelled.
-/
namespace RomLedger.Config

def fields (c : Config) : List (String × Json.Value) :=
  [("db_path", .text c.indexPath),
    ("dat_root", (c.catalogRoot.map Json.Value.text).getD .null),
    ("workers", .integer c.workers.toNat),
    ("max_batch_size", .integer c.maxBatchSize.toNat),
    ("depot", .list (c.roots.map rootValue))]

def names : List String := ["db_path", "dat_root", "workers", "max_batch_size", "depot"]

theorem value_eq (c : Config) : c.value = .object c.fields := rfl

theorem names_fields (c : Config) : c.fields.map Prod.fst = names := rfl

/-- A configuration in some of its fields, and another in the others. -/
def keeping (kept : List String) (c other : Config) : Config where
  indexPath := if "db_path" ∈ kept then c.indexPath else other.indexPath
  catalogRoot := if "dat_root" ∈ kept then c.catalogRoot else other.catalogRoot
  workers := if "workers" ∈ kept then c.workers else other.workers
  maxBatchSize := if "max_batch_size" ∈ kept then c.maxBatchSize else other.maxBatchSize
  roots := if "depot" ∈ kept then c.roots else other.roots

/-- The members of an object that is made from a saved configuration: some of what was saved, each at most once and in
any order, and whatever has another name. -/
structure Edited (c : Config) (ms : List (String × List Char)) : Prop where
  known : ∀ m ∈ ms, ∀ v, (m.1, v) ∈ c.fields → Json.Shows v m.2
  unknown : ∀ m ∈ ms, m.1 ∉ names → Json.WellFormed m.2
  once : ((ms.map Prod.fst).filter (· ∈ names)).Nodup

variable {c other : Config} {ms : List (String × List Char)} {t : List Char} {r : RootConfig}

theorem reads_root (shown : Json.Shows (rootValue r) t) : Json.Reads readRoot r t := by
  obtain ⟨ps, fields, values, object⟩ := Json.Shows.of_object shown
  obtain ⟨⟨path, p⟩, ps, rfl, rfl, fields'⟩ := List.map_eq_cons_iff.mp fields
  obtain ⟨⟨size, q⟩, ps, rfl, rfl, fields''⟩ := List.map_eq_cons_iff.mp fields'
  obtain rfl := List.map_eq_nil_iff.mp fields''
  obtain ⟨path, size⟩ : Json.Shows (.text r.path) p ∧ Json.Shows (.integer r.maxSize.toInt) q := by
    simpa using values
  have first : Json.Reads (Json.Reader.text "path string") r.path p := by
    cases path with
    | text spells => exact Json.reads_text _ spells
  have second : Json.Reads (Json.Reader.signed "i64") r.maxSize q := by
    cases size with
    | integer => exact Json.reads_signed _ _
  have first := Json.reads_map (fun v (d : RootDraft) => { d with path := some v }) first
  have second := Json.reads_map (fun v (d : RootDraft) => { d with maxSize := some v }) second
  have takes : rootRecord.Takes ⟨none, none⟩ [("path", p), ("max_size", q)] ⟨some r.path, some r.maxSize⟩ :=
    .known rfl rfl first (.known rfl rfl second .nil)
  exact Json.reads_map _ (Json.reads_record takes rfl object)

theorem reads_roots {rs : List RootConfig} (shown : Json.Shows (.list (rs.map rootValue)) t) :
    Json.Reads readRoot.list rs t := by
  obtain ⟨ps, u, values, items, between, rfl⟩ := Json.Shows.of_list shown
  obtain ⟨qs, roots, texts, reads⟩ : ∃ qs : List (RootConfig × List Char), qs.map Prod.fst = rs ∧
      qs.map Prod.snd = ps.map Prod.snd ∧ ∀ q ∈ qs, Json.Reads readRoot q.1 q.2 := by
    clear shown between
    induction ps generalizing rs with
    | nil =>
      have none_ : rs = [] := by simpa using values.symm
      exact ⟨[], none_.symm, rfl, List.forall_mem_nil _⟩
    | cons p ps ih =>
      obtain ⟨r, rs, rfl, same, later⟩ := List.map_eq_cons_iff.mp (values.symm.trans List.map_cons)
      obtain ⟨front, others⟩ := List.forall_mem_cons.mp items
      obtain ⟨qs, roots, texts, reads⟩ := ih later.symm others
      refine ⟨(r, p.2) :: qs, by rw [List.map_cons, roots], by rw [List.map_cons, texts, List.map_cons], ?_⟩
      exact List.forall_mem_cons.mpr ⟨reads_root (same ▸ front), reads⟩
  rw [← roots]
  exact Json.reads_list reads (texts ▸ between)

def given (c : Config) (kept : List String) : Draft where
  indexPath := if "db_path" ∈ kept then some c.indexPath else none
  catalogRoot := if "dat_root" ∈ kept then some c.catalogRoot else none
  workers := if "workers" ∈ kept then some c.workers else none
  maxBatchSize := if "max_batch_size" ∈ kept then some c.maxBatchSize else none
  roots := if "depot" ∈ kept then some c.roots else none

theorem withDefaults_given (kept : List String) : (c.given kept).withDefaults other = c.keeping kept other := by
  simp only [Draft.withDefaults, given, keeping]
  congr 1 <;> split <;> rfl

theorem reads_field {name : String} {v : Json.Value} (saved : (name, v) ∈ c.fields) (shown : Json.Shows v t)
    {kept : List String} (new : name ∉ kept) :
    ∃ f g, record.fields.find? (fun f => f.name == name) = some f ∧ f.isGiven (c.given kept) = false ∧
      Json.Reads f.value g t ∧ g (c.given kept) = c.given (kept ++ [name]) := by
  simp only [fields, List.mem_cons, Prod.mk.injEq, List.not_mem_nil, or_false] at saved
  rcases saved with ⟨rfl, rfl⟩ | ⟨rfl, rfl⟩ | ⟨rfl, rfl⟩ | ⟨rfl, rfl⟩ | ⟨rfl, rfl⟩
  · cases shown with
    | text spells =>
      have reads := Json.reads_text "path string" spells
      refine ⟨_, _, rfl, ?_, Json.reads_map (fun v (d : Draft) => { d with indexPath := some v }) reads, ?_⟩
      · simp [given, new]
      · simp [given]
  · have reads : Json.Reads (Json.Reader.text "path string").nullable c.catalogRoot t := by
      cases root : c.catalogRoot with
      | none =>
        rw [root] at shown
        cases shown
        exact Json.reads_none _
      | some p =>
        rw [root] at shown
        cases shown with
        | text spells => exact Json.reads_some (Json.reads_text _ spells)
    refine ⟨_, _, rfl, ?_, Json.reads_map (fun v (d : Draft) => { d with catalogRoot := some v }) reads, ?_⟩
    · simp [given, new]
    · simp [given]
  · cases shown
    have reads := Json.reads_unsigned "usize" c.workers
    refine ⟨_, _, rfl, ?_, Json.reads_map (fun v (d : Draft) => { d with workers := some v }) reads, ?_⟩
    · simp [given, new]
    · simp [given]
  · cases shown
    have reads := Json.reads_unsigned "u64" c.maxBatchSize
    refine ⟨_, _, rfl, ?_, Json.reads_map (fun v (d : Draft) => { d with maxBatchSize := some v }) reads, ?_⟩
    · simp [given, new]
    · simp [given]
  · have reads := reads_roots shown
    refine ⟨_, _, rfl, ?_, Json.reads_map (fun v (d : Draft) => { d with roots := some v }) reads, ?_⟩
    · simp [given, new]
    · simp [given]

theorem find?_unknown {name : String} (unknown : name ∉ names) :
    record.fields.find? (fun f => f.name == name) = none := by
  refine List.find?_eq_none.mpr fun f member same => unknown ?_
  have named : f.name ∈ record.fields.map Json.Field.name := List.mem_map_of_mem member
  rw [← beq_iff_eq.mp same]
  exact named

theorem given_unknown {name : String} (unknown : name ∉ names) (kept : List String) :
    c.given (kept ++ [name]) = c.given kept := by
  simp only [names, List.mem_cons, List.not_mem_nil, or_false, not_or] at unknown
  obtain ⟨index, root, workers, size, depot⟩ := unknown
  simp [given, Ne.symm index, Ne.symm root, Ne.symm workers, Ne.symm size, Ne.symm depot]

theorem exists_saved {name : String} (known : name ∈ names) : ∃ v, (name, v) ∈ c.fields := by
  rw [← names_fields c] at known
  obtain ⟨⟨_, v⟩, member, rfl⟩ := List.mem_map.mp known
  exact ⟨v, member⟩

theorem takes_members (known : ∀ m ∈ ms, ∀ v, (m.1, v) ∈ c.fields → Json.Shows v m.2)
    (unknown : ∀ m ∈ ms, m.1 ∉ names → Json.WellFormed m.2) {kept : List String}
    (once : ((kept ++ ms.map Prod.fst).filter (· ∈ names)).Nodup) :
    record.Takes (c.given kept) ms (c.given (kept ++ ms.map Prod.fst)) := by
  induction ms generalizing kept with
  | nil =>
    rw [List.map_nil, List.append_nil]
    exact .nil
  | cons m ms ih =>
    obtain ⟨shows_, knowns⟩ := List.forall_mem_cons.mp known
    obtain ⟨formed, unknowns⟩ := List.forall_mem_cons.mp unknown
    have whole : kept ++ (m :: ms).map Prod.fst = kept ++ [m.1] ++ ms.map Prod.fst := by simp
    rw [whole] at once ⊢
    have later := ih knowns unknowns once
    by_cases named : m.1 ∈ names
    · obtain ⟨v, saved⟩ := exists_saved (c := c) named
      have new : m.1 ∉ kept := by
        intro before
        rw [List.append_assoc, List.filter_append, List.nodup_append] at once
        exact once.2.2 m.1 (List.mem_filter.mpr ⟨before, by simpa using named⟩) m.1
          (List.mem_filter.mpr ⟨by simp, by simpa using named⟩) rfl
      obtain ⟨f, g, found, free, reads, more⟩ := reads_field saved (shows_ v saved) new
      rw [← more] at later
      exact .known found free reads later
    · rw [given_unknown named] at later
      exact .unknown (find?_unknown named) (formed named) later

theorem parse_edited (defaults : Config) {text : String} (edited : Edited c ms) (document : Json.Document ms text) :
    parse defaults text = .ok (c.keeping (ms.map Prod.fst) defaults) := by
  obtain ⟨led, object, blank⟩ := document
  have takes : record.Takes (c.given []) ms (c.given ([] ++ ms.map Prod.fst)) :=
    takes_members edited.known edited.unknown edited.once
  have complete : record.missing? (c.given ([] ++ ms.map Prod.fst)) = none := rfl
  have reads := Json.reads_record takes complete object
  have read := Json.document_of_reads reads led blank
  rw [parse]
  have start : c.given [] = Draft.blank := rfl
  rw [start] at read
  rw [read, List.nil_append]
  exact congrArg Except.ok (withDefaults_given _)

theorem exact_value (c : Config) : c.value.Exact := by
  rw [value_eq]
  refine .object fun f member => ?_
  simp only [fields, List.mem_cons, List.not_mem_nil, or_false] at member
  rcases member with rfl | rfl | rfl | rfl | rfl
  · exact .text _
  · cases c.catalogRoot with
    | none => exact .null
    | some p => exact .text p
  · exact .integer _
  · exact .integer _
  · refine .list fun v among => ?_
    obtain ⟨r, -, rfl⟩ := List.mem_map.mp among
    refine .object fun f member => ?_
    simp only [List.mem_cons, List.not_mem_nil, or_false] at member
    rcases member with rfl | rfl
    · exact .text _
    · exact .integer _

theorem fields_unique {name : String} {v v' : Json.Value} (saved : (name, v) ∈ c.fields)
    (saved' : (name, v') ∈ c.fields) : v = v' := by
  have once : (c.fields.map Prod.fst).Nodup := by
    rw [names_fields]
    decide
  exact congrArg Prod.snd (List.inj_on_of_nodup_map once saved saved' rfl)

/-- The members of the saved object: all fields in order, each with a text of its value. -/
def Saved (c : Config) (ms : List (String × List Char)) : Prop :=
  List.Forall₂ (fun f m => m.1 = f.1 ∧ Json.Shows f.2 m.2) c.fields ms

/-- The members of the saved object as they are written. -/
def written (c : Config) : List (String × List Char) := Json.written .lines 0 c.fields

theorem saved_written (c : Config) : c.Saved c.written := by
  have exact_ := c.exact_value
  rw [value_eq] at exact_
  cases exact_ with
  | object values =>
    rw [Saved, written, Json.written, List.forall₂_map_right_iff, List.forall₂_same]
    exact fun f member => ⟨rfl, Json.shows_write Json.plain_lines (values f member) 1⟩

theorem document_render (c : Config) : Json.Document c.written c.render := by
  have object : Json.ObjectText c.written (c.value.write .lines 0) :=
    Json.objectText_write Json.plain_lines 0 c.fields
  have document := Json.Document.mk (List.forall_mem_nil _) object (List.forall_mem_nil _)
  rwa [List.nil_append, List.append_nil] at document

theorem Saved.names (saved : c.Saved ms) : ms.map Prod.fst = names := by
  rw [← names_fields c]
  unfold Saved at saved
  generalize c.fields = fs at saved ⊢
  induction saved with
  | nil => rfl
  | cons front later ih => rw [List.map_cons, List.map_cons, front.1, ih]

theorem Saved.shows (saved : c.Saved ms) {m : String × List Char} (member : m ∈ ms) :
    ∃ v, (m.1, v) ∈ c.fields ∧ Json.Shows v m.2 := by
  unfold Saved at saved
  generalize c.fields = fs at saved ⊢
  induction saved with
  | nil => cases member
  | @cons f m' fs ms front later ih =>
    obtain ⟨named, shown⟩ := front
    rcases List.mem_cons.mp member with rfl | inside
    · exact ⟨f.2, by rw [named]; exact List.mem_cons_self, shown⟩
    · obtain ⟨v, field, shown⟩ := ih inside
      exact ⟨v, List.mem_cons_of_mem _ field, shown⟩

theorem edited_of_saved {all kept extra : List (String × List Char)} (saved : c.Saved all) (less : kept.Sublist all)
    (unknown : ∀ m ∈ extra, m.1 ∉ names ∧ Json.WellFormed m.2) (order : ms.Perm (kept ++ extra)) : Edited c ms := by
  have known {m : String × List Char} (member : m ∈ kept) : m.1 ∈ names := by
    rw [← saved.names]
    exact List.mem_map_of_mem (less.subset member)
  have cases_ {m : String × List Char} (member : m ∈ ms) : m ∈ kept ∨ m ∈ extra :=
    List.mem_append.mp (order.subset member)
  refine ⟨fun m member v field => ?_, fun m member other => ?_, ?_⟩
  · rcases cases_ member with inside | outside
    · obtain ⟨v', field', shown⟩ := saved.shows (less.subset inside)
      rwa [fields_unique field field']
    · have named : m.1 ∈ c.fields.map Prod.fst := List.mem_map_of_mem field
      exact absurd named (unknown m outside).1
  · rcases cases_ member with inside | outside
    · exact absurd (known inside) other
    · exact (unknown m outside).2
  · have none_extra : (extra.map Prod.fst).filter (· ∈ names) = [] := by
      refine List.filter_eq_nil_iff.mpr fun name member => ?_
      obtain ⟨m, outside, rfl⟩ := List.mem_map.mp member
      simpa using (unknown m outside).1
    have once : (kept.map Prod.fst).Nodup := by
      have few := less.map Prod.fst
      rw [saved.names] at few
      exact few.nodup (by decide)
    rw [((order.map Prod.fst).filter _).nodup_iff, List.map_append, List.filter_append, none_extra, List.append_nil]
    exact once.filter _

theorem keeping_of_perm {kept extra : List (String × List Char)} (unknown : ∀ m ∈ extra, m.1 ∉ names)
    (order : ms.Perm (kept ++ extra)) :
    c.keeping (ms.map Prod.fst) other = c.keeping (kept.map Prod.fst) other := by
  have same {name : String} (known : name ∈ names) : name ∈ ms.map Prod.fst ↔ name ∈ kept.map Prod.fst := by
    rw [(order.map Prod.fst).mem_iff, List.map_append, List.mem_append]
    refine or_iff_left fun outside => ?_
    obtain ⟨m, member, rfl⟩ := List.mem_map.mp outside
    exact unknown m member known
  have index : "db_path" ∈ names := by decide
  have root : "dat_root" ∈ names := by decide
  have workers : "workers" ∈ names := by decide
  have size : "max_batch_size" ∈ names := by decide
  have depot : "depot" ∈ names := by decide
  simp only [keeping, same index, same root, same workers, same size, same depot]

theorem keeping_names (c other : Config) : c.keeping names other = c := by
  simp [keeping, names]

theorem parse_render (defaults c : Config) : parse defaults c.render = .ok c := by
  have saved := saved_written c
  have edited : Edited c c.written :=
    edited_of_saved saved (List.Sublist.refl _) (List.forall_mem_nil _) (by rw [List.append_nil])
  rw [parse_edited defaults edited (document_render c), saved.names, keeping_names]

variable {σ : Type} {d d' : Disk σ} {p : Path}

theorem load_of_read (defaults : Config) {text : String} (found : d.read p = .ok (Bytes.ofString text)) :
    load d defaults p = (parse defaults text).mapError (.invalid p text) := by
  simp only [load, Disk.fileExists_of_read found, found, Utf8.decode_ofString, ↓reduceIte]

theorem save_ok_iff_write : (save d p c).1 = .ok () ↔
    ∃ made, (p.parent?.map d.makeDirectories).getD (.ok d) = .ok made ∧
      made.write p (Bytes.ofString c.render) = (.ok (), (save d p c).2) := by
  unfold save
  cases above : (p.parent?.map d.makeDirectories).getD (.ok d) with
  | error f => simp
  | ok made =>
    dsimp only
    rcases written : made.write p (Bytes.ofString c.render) with ⟨result, after⟩
    cases result <;> simp [Except.mapError, written]

theorem save_ok_iff : (save d p c).1 = .ok () ↔
    ∃ made place, (p.parent?.map d.makeDirectories).getD (.ok d) = .ok made ∧ made.locate true p = .ok place ∧
      made.get? place ≠ some .dir ∧ made.outcome.1 = .done := by
  constructor
  · intro saved
    obtain ⟨made, above, written⟩ := save_ok_iff_write.mp saved
    obtain ⟨place, located, file, next, -⟩ := Disk.write_ok_iff.mp written
    exact ⟨made, place, above, located, file, next⟩
  · rintro ⟨made, place, above, located, file, next⟩
    have written : made.write p (Bytes.ofString c.render) =
        (.ok (), made.outcome.2.set place (.file (Bytes.ofString c.render))) :=
      Disk.write_ok_iff.mpr ⟨place, located, file, next, rfl⟩
    simp only [save, above, written]
    rfl

theorem load_of_save (defaults : Config) (saved : (save d p c).1 = .ok ()) :
    load (save d p c).2 defaults p = .ok c := by
  obtain ⟨made, -, written⟩ := save_ok_iff_write.mp saved
  rw [load_of_read defaults (Disk.read_of_write written), parse_render]
  rfl

/-- A configuration that is saved is loaded again, and saving depends on the disk alone. What is saved is an object with
five fields; of any object that is made from it by leaving fields out, adding unknown ones and changing the order, in
any layout and spelling, the configuration is loaded that has defaults in the places of the fields that were left
out. -/
theorem loads_what_was_saved (σ : Type) :
    (∀ (d : Disk σ) p c, (save d p c).1 = .ok () ↔
      ∃ made place, (p.parent?.map d.makeDirectories).getD (.ok d) = .ok made ∧ made.locate true p = .ok place ∧
        made.get? place ≠ some .dir ∧ made.outcome.1 = .done) ∧
    (∀ (d : Disk σ) p c defaults, (save d p c).1 = .ok () → load (save d p c).2 defaults p = .ok c) ∧
    (∀ c : Config, c.Saved c.written ∧ Json.Document c.written c.render) ∧
    ∀ (c : Config) (all kept extra ms : List (String × List Char)) (text : String), c.Saved all → kept.Sublist all →
      (∀ m ∈ extra, m.1 ∉ names ∧ Json.WellFormed m.2) → ms.Perm (kept ++ extra) → Json.Document ms text →
      ∀ (d : Disk σ) p defaults, d.read p = .ok (Bytes.ofString text) →
        load d defaults p = .ok (c.keeping (kept.map Prod.fst) defaults) := by
  refine ⟨fun d p c => save_ok_iff, fun d p c defaults => load_of_save defaults,
    fun c => ⟨saved_written c, document_render c⟩, ?_⟩
  intro c all kept extra ms text saved less unknown order document d p defaults found
  have edited := edited_of_saved saved less unknown order
  rw [load_of_read defaults found, parse_edited defaults edited document,
    keeping_of_perm (fun m member => (unknown m member).1) order]
  rfl

def strangeConfig : Config where
  indexPath := "a\"\\\n\x01\u00e9"
  catalogRoot := some "\t/\uffff"
  workers := 18446744073709551615
  maxBatchSize := 0
  roots := [⟨"", Int64.minValue⟩, ⟨"/d", -1⟩]

def strangePath : Path := .ofString "etc/config.json"

def strangeText : String := "\x7b \"\\u0078\": [1e999,\"\\ud800\"] ,\n\"workers\":18446744073709551615\x7d\t"

def strangeValue : List Char := "[1e999,\"\\ud800\"]".toList

def strangeWorkers : List Char := "18446744073709551615".toList

theorem wellFormed_strange : Json.WellFormed strangeValue := by
  have number : Json.WellFormed "1e999".toList :=
    .number (.mk (.inl rfl) (@Json.IsWhole.digits '1' [] rfl (by decide) (List.forall_mem_nil _)) .none
      (@Json.IsExponent.digits 'e' [] ['9', '9', '9'] rfl (.inl rfl) (by decide) (by simp [Json.isDigit])))
  have text : Json.WellFormed "\"\\ud800\"".toList :=
    .text (@Json.Spells.number false 'd' '8' '0' '0' 0xD800 [] [] (by decide) (by simp) .nil)
  have items : ∀ t ∈ ["1e999".toList, "\"\\ud800\"".toList], Json.WellFormed t := by
    simpa using ⟨number, text⟩
  have blank : Json.AllBlank [] := List.forall_mem_nil _
  exact .list items (.parts blank (.part blank blank (.closed blank)))

theorem document_strange : Json.Document [("x", strangeValue), ("workers", strangeWorkers)] strangeText := by
  have none_ : Json.AllBlank [] := List.forall_mem_nil _
  have space : Json.AllBlank [' '] := by simp [Json.AllBlank, Json.isBlank]
  have line : Json.AllBlank ['\n'] := by simp [Json.AllBlank, Json.isBlank]
  have tab : Json.AllBlank ['\t'] := by simp [Json.AllBlank, Json.isBlank]
  have letter : Json.Spells true "x".toList "\\u0078".toList :=
    @Json.Spells.number true '0' '0' '7' '8' 0x78 [] [] (by decide) (fun _ => by decide) .nil
  have plain := Json.spells_escaped true "workers".toList
  have first := Json.FieldText.mk (t := strangeValue) letter none_ space
  have second := Json.FieldText.mk (t := strangeWorkers) plain none_ none_
  have fields : List.Forall₂ (fun m w => Json.FieldText true m.1.toList m.2 w)
      [("x", strangeValue), ("workers", strangeWorkers)] [_, _] := .cons first (.cons second .nil)
  have document := Json.Document.mk none_ (.mk fields (.parts space (.part space line (.closed none_)))) tab
  exact Eq.subst (motive := Json.Document [("x", strangeValue), ("workers", strangeWorkers)])
    (by decide +kernel) document

theorem loads_strange :
    (save (.empty : Disk Unit) strangePath strangeConfig).1 = .ok () ∧
      load (save (.empty : Disk Unit) strangePath strangeConfig).2 (defaults "/home" 4) strangePath =
        .ok strangeConfig ∧
      load (⟨[(["c"], .file (Bytes.ofString strangeText))], [], []⟩ : Disk Unit) (defaults "/home" 4) (.ofString "c") =
        .ok { defaults "/home" 4 with workers := 18446744073709551615 } := by
  obtain ⟨-, again, saved, edited⟩ := loads_what_was_saved Unit
  have done : (save (.empty : Disk Unit) strangePath strangeConfig).1 = .ok () := by decide +kernel
  have kept : [("workers", strangeWorkers)].Sublist strangeConfig.written :=
    List.singleton_sublist.mpr (by decide +kernel)
  have unknown : ∀ m ∈ [("x", strangeValue)], m.1 ∉ names ∧ Json.WellFormed m.2 := by
    rintro m (_ | ⟨_, ⟨⟩⟩)
    exact ⟨by decide, wellFormed_strange⟩
  refine ⟨done, again _ _ _ _ done, ?_⟩
  exact edited strangeConfig _ _ _ _ _ (saved strangeConfig).1 kept unknown (.swap _ _ _) document_strange _ _ _ rfl

end RomLedger.Config
