import RomLedger.Proofs.Catalog.Digest
import RomLedger.Proofs.Markup.Printing
import RomLedger.Proofs.Markup.Scanning

/-!
Documents that are written for a catalog. They are read as that catalog, whatever its names hold and however
its elements are interleaved, with the digest of all their bytes.
-/
namespace RomLedger.Markup

theorem sound_element {name : String} {as : List (String × Value)} {body es : List Event}
    (named : Named (Bytes.ofString name)) (ordinary : Ordinary as) (inside : ∀ e ∈ body, e.Sound)
    (element : Element name as body es) : ∀ e ∈ es, e.Sound := by
  obtain ⟨t, shows_, rfl⟩ := element
  intro e member
  simp only [List.mem_cons, List.mem_append, List.not_mem_nil, or_false] at member
  rcases member with rfl | within | rfl
  · exact ⟨name, as, shows_, ordinary, named⟩
  · exact inside e within
  · change Named t.name
    rw [shows_.1]
    exact named

theorem sound_elements {γ : Type} {R : γ → List Event → Prop} {cs : List γ} {body : List Event}
    (sound : ∀ c ∈ cs, ∀ es, R c es → ∀ e ∈ es, e.Sound) (elements : Elements R cs body) : ∀ e ∈ body, e.Sound := by
  obtain ⟨ess, related, rfl⟩ := elements
  intro e member
  obtain ⟨es, among, inside⟩ := List.mem_flatten.mp member
  obtain ⟨c, among', held⟩ := exists_of_forall₂ related among
  exact sound c among' es held e inside

theorem sound_file {name : String} {d : RomDraft} {es : List Event} (named : Named (Bytes.ofString name))
    (element : fileElement name d es) : ∀ e ∈ es, e.Sound :=
  sound_element named (ordinary_file d) (List.forall_mem_nil _) element

theorem sound_area {name : String} {ds : List RomDraft} {es : List Event} (named : Named (Bytes.ofString name))
    (element : areaElement name ds es) : ∀ e ∈ es, e.Sound := by
  obtain ⟨body, elements, element⟩ := element
  have inside := sound_elements (fun d _ es file => sound_file (by decide) file) elements
  exact sound_element named ordinary_nil inside element

theorem sound_leaf {name s : String} {es : List Event} (named : Named (Bytes.ofString name)) (trimmed : Text.trim s = s)
    (element : leafElement name s es) : ∀ e ∈ es, e.Sound := by
  refine sound_element named ordinary_nil ?_ element
  intro e member
  split at member
  · cases member
  · rename_i some_
    rw [List.mem_singleton.mp member]
    exact ⟨trimmed, some_⟩

namespace GameElement

theorem sound {x : GameElement} {g : Game} {key : String} {es : List Event} (named : Named (Bytes.ofString key))
    (shows_ : x.Shows g) (trimmed : Text.trim g.description = g.description) (element : x.element key es) :
    ∀ e ∈ es, e.Sound := by
  obtain ⟨body, elements, element⟩ := element
  have child : ∀ c ∈ x.children, ∀ es, c.element es → ∀ e ∈ es, e.Sound := by
    intro c member es held
    cases c with
    | description s =>
      have among : s ∈ x.children.filterMap GameChild.description? := List.mem_filterMap.mpr ⟨_, member, rfl⟩
      have same : s = g.description := by
        rcases shows_.description with one | ⟨none_, -⟩
        · rw [one] at among
          exact List.mem_singleton.mp among
        · rw [none_] at among
          cases among
      exact sound_leaf (by decide) (same ▸ trimmed) held
    | rom d => exact sound_file (by decide) held
    | disk d => exact sound_file (by decide) held
    | part areas =>
      obtain ⟨body, elements, element⟩ := held
      have inside := sound_elements (fun ds _ es area => sound_area (by decide) area) elements
      exact sound_element (by decide) ordinary_nil inside element
    | region ds => exact sound_area (by decide) held
  exact sound_element named (ordinary_name x.name) (sound_elements child elements) element

end GameElement

theorem RootChild.sound {c : RootChild} {es : List Event} (proper : c.Proper) (element : c.element es) :
    ∀ e ∈ es, e.Sound := by
  cases c with
  | header cs =>
    obtain ⟨-, -, names, descriptions⟩ := proper
    obtain ⟨body, elements, element⟩ := element
    have child : ∀ c ∈ cs, ∀ es, c.element es → ∀ e ∈ es, e.Sound := by
      intro c member es held
      cases c with
      | name s => exact sound_leaf (by decide) (names s (List.mem_filterMap.mpr ⟨_, member, rfl⟩)) held
      | description s => exact sound_leaf (by decide) (descriptions s (List.mem_filterMap.mpr ⟨_, member, rfl⟩)) held
    exact sound_element (by decide) ordinary_nil (sound_elements child elements) element
  | game x | machine x | software x =>
    obtain ⟨g, shows_, trimmed⟩ := proper
    exact GameElement.sound (by decide) shows_ trimmed element

theorem Datafile.sound {x : Datafile} {c : Catalog} {es : List Event} (shows_ : x.Shows c) (normal : c.normalize = c)
    (element : x.element es) : ∀ e ∈ es, e.Sound := by
  obtain ⟨body, elements, element⟩ := element
  have child : ∀ c ∈ x.children, ∀ es, c.element es → ∀ e ∈ es, e.Sound :=
    fun c member es held => RootChild.sound (shows_.proper normal c member) held
  exact sound_element shows_.root x.ordinary (sound_elements child elements) element

/-- A document that is written for a catalog is read as that catalog, in whatever portions it comes. -/
theorem parse_rendered {f : Feed} {x : Datafile} {c : Catalog} {es : List Event} (calm : f.failing = false)
    (normal : c.normalize = c) (shows_ : x.Shows c) (element : x.element es) (document : Document es f.rest) :
    parse f = .ok (c, Sha1.digest f.rest) := by
  have sound := Datafile.sound shows_ normal element
  obtain ⟨items, s, pieces, calm', gives⟩ := Scanner.pieces_document calm document sound
  have ahead : (Cursor.ofItems items).Ahead es := ⟨es, rfl, gives, fun ended => sound .ended ended⟩
  obtain ⟨c', read, -⟩ := Datafile.leads shows_.headers (shows_.proper normal) element _ ahead
  have drained : s.reader.drain.stop ≠ .failed := by
    rw [Reader.drain, (Reader.run_goes _ () calm').stop]
    exact Reader.walk_ne_failed _ _ _
  have parsed : parse f = .ok (c, s.reader.drain.reader.meter.digest) := by
    simp only [parse, pieces, read, shows_.toCatalog, normal]
  rw [parsed, digest_of_parse parsed]

/-- Files of all kinds between each other, a game behind a machine, and hashes that are malformed, blank or short. -/
def mixedDatafile : Datafile where
  root := "datafile"
  name := some "unseen"
  description := some "d & \"e\""
  children :=
    [.software ⟨"s", [.part [[⟨"p", 1, some "zz", some "-", none⟩], []], .part [[⟨"q", 2, none, none, none⟩]]]⟩,
      .machine ⟨"m", []⟩,
      .header [.name "a <b>"],
      .game ⟨"g", [.rom ⟨"r", 3, some " 1a2b ", none, some ""⟩, .description "t", .disk ⟨"k", 0, none, none, none⟩,
        .rom ⟨"'x'", 18446744073709551615, none, none, none⟩, .region [⟨"v", 4, none, some "0", none⟩]]⟩]

def mixedCatalog : Catalog :=
  ⟨"a <b>", "d & \"e\"",
    [⟨"g", "t", [⟨"r", 3, some [0, 0, 0x1a, 0x2b], none, none⟩, ⟨"'x'", 18446744073709551615, none, none, none⟩],
        [⟨"k", 0, none, none, none⟩], [], [⟨"v", 4, none, some (List.replicate 16 0), none⟩]⟩,
      ⟨"m", "", [], [], [], []⟩],
    [⟨"s", "", [], [], [⟨"p", 1, none, none, none⟩, ⟨"q", 2, none, none, none⟩], []⟩]⟩

def mixedText : List String :=
  ["<?xml version=\"1.0\"?>", "<datafile name=\"unseen\" description=\"d &amp; &quot;e&quot;\">",
    "<software name=\"s\"><part><dataarea>", "<rom name=\"p\" size=\"1\" crc=\"zz\" md5=\"-\"></rom>",
    "</dataarea><dataarea></dataarea></part><part><dataarea>", "<rom name=\"q\" size=\"2\"></rom>",
    "</dataarea></part></software><machine name=\"m\"></machine>", "<header><name>a &lt;b></name></header>",
    "<game name=\"g\">", "<rom name=\"r\" size=\"3\" crc=\" 1a2b \" sha1=\"\"></rom>",
    "<description>t</description><disk name=\"k\" size=\"0\"></disk>",
    "<rom name=\"'x'\" size=\"18446744073709551615\"></rom>",
    "<region><rom name=\"v\" size=\"4\" md5=\"0\"></rom></region></game></datafile>"]

theorem shows_mixed : mixedDatafile.Shows mixedCatalog where
  root := by decide
  headers := by decide
  names := by decide
  descriptions := by decide
  name := by decide
  description := by decide
  games := by
    refine .cons ⟨rfl, .inl rfl, ?_, ?_, ?_, ?_⟩ (.cons ⟨rfl, .inr ⟨rfl, rfl⟩, ?_, ?_, ?_, ?_⟩ .nil) <;> decide +kernel
  software := by
    refine .cons ⟨rfl, .inr ⟨rfl, rfl⟩, ?_, ?_, ?_, ?_⟩ .nil <;> decide +kernel

theorem parse_mixed : parse (.steady (mixedText.flatMap Bytes.ofString) (some 7) none) =
    .ok (mixedCatalog, Sha1.digest (mixedText.flatMap Bytes.ofString)) := by
  have text : mixedDatafile.print = mixedText.flatMap Bytes.ofString := by decide +kernel
  have document := mixedDatafile.document_print
  rw [text] at document
  have normal : mixedCatalog.normalize = mixedCatalog := by decide +kernel
  generalize mixedText.flatMap Bytes.ofString = bytes at document ⊢
  exact parse_rendered (f := .steady bytes (some 7) none) rfl normal shows_mixed mixedDatafile.element_events document

end RomLedger.Markup
