import RomLedger.Markup.Document
import RomLedger.Proofs.Catalog.Coercion
import RomLedger.Proofs.Markup.Children

/- Catalogs as elements. A game lists its files by kind, and the children of an element may stand in any order
   as long as those of one kind keep theirs. -/
namespace RomLedger.Markup

open Cursor (Leads Balanced)

def optional (key : String) : Option String → List (String × Value)
  | none => []
  | some s => [(key, .text s)]

def RomDraft.attributes (d : RomDraft) : List (String × Value) :=
  ("name", .text d.name) :: ("size", .number d.size) ::
    (optional "crc" d.crc ++ optional "md5" d.md5 ++ optional "sha1" d.sha1)

/-- A file; its hashes are any texts. -/
def fileElement (name : String) (d : RomDraft) (es : List Event) : Prop := Element name d.attributes [] es

def areaElement (name : String) (ds : List RomDraft) (es : List Event) : Prop :=
  ∃ body, Elements (fileElement "rom") ds body ∧ Element name [] body es

def partElement (areas : List (List RomDraft)) (es : List Event) : Prop :=
  ∃ body, Elements (areaElement "dataarea") areas body ∧ Element "part" [] body es

/-- An element with nothing but a text in it. -/
def leafElement (name s : String) (es : List Event) : Prop := Element name [] (if s = "" then [] else [.text s]) es

inductive GameChild where
  | description (s : String)
  | rom (d : RomDraft)
  | disk (d : RomDraft)
  | part (areas : List (List RomDraft))
  | region (ds : List RomDraft)
  deriving DecidableEq, Repr

namespace GameChild

def element : GameChild → List Event → Prop
  | .description s => leafElement "description" s
  | .rom d => fileElement "rom" d
  | .disk d => fileElement "disk" d
  | .part areas => partElement areas
  | .region ds => areaElement "region" ds

def description? : GameChild → Option String
  | .description s => some s
  | _ => none

def rom? : GameChild → Option RomDraft
  | .rom d => some d
  | _ => none

def disk? : GameChild → Option RomDraft
  | .disk d => some d
  | _ => none

def part? : GameChild → Option (List (List RomDraft))
  | .part areas => some areas
  | _ => none

def region? : GameChild → Option (List RomDraft)
  | .region ds => some ds
  | _ => none

end GameChild

/-- A game or a software entry, its children in the order in which they are written. -/
structure GameElement where
  name : String
  children : List GameChild

namespace GameElement

def element (key : String) (x : GameElement) (es : List Event) : Prop :=
  ∃ body, Elements GameChild.element x.children body ∧ Element key [("name", .text x.name)] body es

/-- The element is written for the game. An empty description may be left out. -/
structure Shows (x : GameElement) (g : Game) : Prop where
  name : x.name = g.name
  description : x.children.filterMap GameChild.description? = [g.description] ∨
    x.children.filterMap GameChild.description? = [] ∧ g.description = ""
  roms : (x.children.filterMap GameChild.rom?).map RomDraft.toRom = g.roms
  disks : (x.children.filterMap GameChild.disk?).map RomDraft.toRom = g.disks
  parts : (x.children.filterMap GameChild.part?).flatten.flatten.map RomDraft.toRom = g.parts
  regions : (x.children.filterMap GameChild.region?).flatten.map RomDraft.toRom = g.regions

end GameElement

inductive HeaderChild where
  | name (s : String)
  | description (s : String)
  deriving DecidableEq, Repr

namespace HeaderChild

def element : HeaderChild → List Event → Prop
  | .name s => leafElement "name" s
  | .description s => leafElement "description" s

def name? : HeaderChild → Option String
  | .name s => some s
  | _ => none

def description? : HeaderChild → Option String
  | .description s => some s
  | _ => none

end HeaderChild

inductive RootChild where
  | header (cs : List HeaderChild)
  | game (x : GameElement)
  | machine (x : GameElement)
  | software (x : GameElement)

namespace RootChild

def element : RootChild → List Event → Prop
  | .header cs => fun es => ∃ body, Elements HeaderChild.element cs body ∧ Element "header" [] body es
  | .game x => x.element "game"
  | .machine x => x.element "machine"
  | .software x => x.element "software"

def header? : RootChild → Option (List HeaderChild)
  | .header cs => some cs
  | _ => none

def game? : RootChild → Option GameElement
  | .game x => some x
  | _ => none

def machine? : RootChild → Option GameElement
  | .machine x => some x
  | _ => none

def software? : RootChild → Option GameElement
  | .software x => some x
  | _ => none

end RootChild

/-- The root of a document, with the attributes that may name the catalog in place of a header. -/
structure Datafile where
  root : String
  name : Option String
  description : Option String
  children : List RootChild

namespace Datafile

def attributes (x : Datafile) : List (String × Value) := optional "name" x.name ++ optional "description" x.description

def element (x : Datafile) (es : List Event) : Prop :=
  ∃ body, Elements RootChild.element x.children body ∧ Element x.root x.attributes body es

def headed (x : Datafile) : List HeaderChild := (x.children.filterMap RootChild.header?).flatten

/-- The document is written for the catalog: names in a header or at the root, the games as games and then as
machines. -/
structure Shows (x : Datafile) (c : Catalog) : Prop where
  root : Named (Bytes.ofString x.root)
  headers : (x.children.filterMap RootChild.header?).length ≤ 1
  names : (x.headed.filterMap HeaderChild.name?).length ≤ 1
  descriptions : (x.headed.filterMap HeaderChild.description?).length ≤ 1
  name : ((x.headed.filterMap HeaderChild.name?).head?.or x.name).getD "" = c.name
  description : ((x.headed.filterMap HeaderChild.description?).head?.or x.description).getD "" = c.description
  games : List.Forall₂ GameElement.Shows
    (x.children.filterMap RootChild.game? ++ x.children.filterMap RootChild.machine?) c.games
  software : List.Forall₂ GameElement.Shows (x.children.filterMap RootChild.software?) c.software

end Datafile

theorem mem_optional {key : String} {s : Option String} {p : String × Value} :
    p ∈ optional key s ↔ ∃ t, s = some t ∧ p = (key, .text t) := by
  cases s <;> simp [optional]

theorem keys_optional (key : String) (s : Option String) : ((optional key s).map Prod.fst).Sublist [key] := by
  cases s with
  | none => exact List.nil_sublist [key]
  | some t => exact List.Sublist.refl [key]

theorem ordinary_nil : Ordinary [] := ordinary_of_sublist (List.nil_sublist []) (List.forall_mem_nil _) List.nodup_nil

theorem ordinary_file (d : RomDraft) : Ordinary d.attributes := by
  have hashes : ((optional "crc" d.crc ++ optional "md5" d.md5 ++ optional "sha1" d.sha1).map Prod.fst).Sublist
      ["crc", "md5", "sha1"] := by
    rw [List.map_append, List.map_append]
    exact ((keys_optional "crc" d.crc).append (keys_optional "md5" d.md5)).append (keys_optional "sha1" d.sha1)
  exact ordinary_of_sublist (hashes.cons_cons "size" |>.cons_cons "name") (by decide) (by decide)

namespace RomDraft

/-- What an attribute of a file sets. -/
def take : String × Value → RomDraft → RomDraft
  | ("name", .text s), d => { d with name := s }
  | ("size", .number n), d => { d with size := n }
  | ("crc", .text s), d => { d with crc := some s }
  | ("md5", .text s), d => { d with md5 := some s }
  | ("sha1", .text s), d => { d with sha1 := some s }
  | _, d => d

theorem mem_attributes {d : RomDraft} {p : String × Value} (member : p ∈ d.attributes) :
    p = ("name", .text d.name) ∨ p = ("size", .number d.size) ∨ (∃ s, p = ("crc", .text s)) ∨
      (∃ s, p = ("md5", .text s)) ∨ ∃ s, p = ("sha1", .text s) := by
  simp only [attributes, List.mem_cons, List.mem_append, mem_optional] at member
  rcases member with same | same | (⟨s, -, same⟩ | ⟨s, -, same⟩) | ⟨s, -, same⟩
  · exact .inl same
  · exact .inr (.inl same)
  · exact .inr (.inr (.inl ⟨s, same⟩))
  · exact .inr (.inr (.inr (.inl ⟨s, same⟩)))
  · exact .inr (.inr (.inr (.inr ⟨s, same⟩)))

theorem take_attributes (d : RomDraft) : d.attributes.foldl (fun d p => take p d) .blank = d := by
  obtain ⟨name, size, crc, md5, sha1⟩ := d
  cases crc <;> cases md5 <;> cases sha1 <;> rfl

end RomDraft

namespace Schema

theorem text_written {α : Type} {set : String → α → α} {s : String} {b : Bytes} (writes : Writes s b) :
    text set b = .ok (set s) := by
  rw [text, Entity.text_writes writes]

theorem number_written {α : Type} (set : UInt64 → α → α) (n : UInt64) :
    number set (Bytes.ofString (toString n.toNat)) = .ok (set n) := by
  have understood : Numeral.natural 10 Numeral.max64 (toString n.toNat).toList = .ok n.toNat :=
    Numeral.natural_toString (Nat.le_of_lt_succ n.toNat_lt)
  rw [number, verbatim_ofString]
  simp only [understood, UInt64.ofNat_toNat]

theorem takes_file (d : RomDraft) : rom.Takes d.attributes RomDraft.take := by
  intro p member
  rcases RomDraft.mem_attributes member with rfl | rfl | ⟨s, rfl⟩ | ⟨s, rfl⟩ | ⟨s, rfl⟩
  · exact ⟨_, rfl, fun b writes => text_written writes⟩
  · refine ⟨_, rfl, ?_⟩
    rintro _ rfl
    exact number_written _ d.size
  · exact ⟨_, rfl, fun b writes => text_written writes⟩
  · exact ⟨_, rfl, fun b writes => text_written writes⟩
  · exact ⟨_, rfl, fun b writes => text_written writes⟩

theorem exchange_file (d : RomDraft) : ∀ p ∈ d.attributes, ∀ q ∈ d.attributes, p.1 ≠ q.1 →
    ∀ a, RomDraft.take p (RomDraft.take q a) = RomDraft.take q (RomDraft.take p a) := by
  intro p member q member' other a
  rcases RomDraft.mem_attributes member with rfl | rfl | ⟨s, rfl⟩ | ⟨s, rfl⟩ | ⟨s, rfl⟩ <;>
    rcases RomDraft.mem_attributes member' with rfl | rfl | ⟨s', rfl⟩ | ⟨s', rfl⟩ | ⟨s', rfl⟩ <;>
      first | rfl | exact absurd rfl other

theorem leads_file {d : RomDraft} {name : String} {t : Tag} (shows_ : t.Shows name d.attributes) (rest : List Event) :
    Leads (rom.read t) ([] ++ .close t.name :: rest) d rest := by
  have read : Leads (rom.read t) (Child.eventsOf [] ++ .close t.name :: rest) _ rest :=
    leads_read shows_ (ordinary_file d) (takes_file d) (exchange_file d) (List.forall_mem_nil _) .nil
      (List.forall_mem_nil _)
  have built : d.attributes.foldl (fun d p => RomDraft.take p d) rom.blank = d := d.take_attributes
  rw [built] at read
  exact read

theorem reads_file {α : Type} {s : Schema α} {name kind : String} {f : RomDraft → α → α} {d : RomDraft}
    {es : List Event} (known : s.child? name = some (each kind rom f)) (named : Named (Bytes.ofString name))
    (element : fileElement name d es) : s.Reads name (f d) es :=
  reads_each known named (ordinary_file d) .nil element fun _ shows_ rest => leads_file shows_ rest

theorem foldl_concat {γ : Type} (a cs : List γ) : cs.foldl (fun a c => a ++ [c]) a = a ++ cs := by
  induction cs generalizing a with
  | nil => exact (List.append_nil a).symm
  | cons c cs ih => rw [List.foldl_cons, ih, List.append_assoc, List.singleton_append]

theorem takes_nil {α : Type} (s : Schema α) : s.Takes [] fun _ a => a := List.forall_mem_nil _

theorem leads_row {γ : Type} {s : Schema (List γ)} {key kind name : String} {read : Tag → Reading (List γ → List γ)}
    {R : γ → List Event → Prop} {cs : List γ} {body : List Event} {t : Tag} (blank : s.blank = [])
    (known : s.child? key = some (.list kind read)) (reads : ∀ c ∈ cs, ∀ es, R c es → s.Reads key (· ++ [c]) es)
    (shows_ : t.Shows name []) (elements : Elements R cs body) (rest : List Event) :
    Leads (s.read t) (body ++ .close t.name :: rest) cs rest := by
  have read : Leads (s.read t) (body ++ .close t.name :: rest) _ rest :=
    leads_elements shows_ ordinary_nil (takes_nil s) (List.forall_mem_nil _) reads elements
      (List.pairwise_of_forall fun _ _ _ => ⟨kind, read, known⟩) fun c _ d _ other => absurd rfl other
  rw [blank] at read
  rwa [List.foldl_nil, foldl_concat, List.nil_append] at read

theorem reads_areaFile {d : RomDraft} {es : List Event} (element : fileElement "rom" d es) :
    area.Reads "rom" (· ++ [d]) es := reads_file (f := fun r d => d ++ [r]) rfl (by decide) element

theorem leads_area {name : String} {ds : List RomDraft} {body : List Event} {t : Tag} (shows_ : t.Shows name [])
    (elements : Elements (fileElement "rom") ds body) (rest : List Event) :
    Leads (area.read t) (body ++ .close t.name :: rest) ds rest :=
  leads_row rfl rfl (fun _ _ _ element => reads_areaFile element) shows_ elements rest

theorem reads_area {α : Type} {s : Schema α} {name kind : String} {f : List RomDraft → α → α} {ds : List RomDraft}
    {es : List Event} (known : s.child? name = some (each kind area f)) (named : Named (Bytes.ofString name))
    (element : areaElement name ds es) : s.Reads name (f ds) es := by
  obtain ⟨body, elements, element⟩ := element
  have balanced : Balanced body := balanced_elements (fun _ _ _ element => reads_areaFile element) elements
  exact reads_each known named ordinary_nil balanced element fun _ shows_ rest => leads_area shows_ elements rest

theorem leads_leaf {α : Type} (f : String → α → α) (s : String) (t : Tag) (name : Bytes) (rest : List Event) :
    Leads (leaf f t) ((if s = "" then [] else [.text s]) ++ .close name :: rest) (f s) rest := by
  by_cases none_ : s = ""
  · rw [if_pos none_, none_]
    exact Leads.bind Cursor.leads_next (Cursor.leads_pure _)
  · rw [if_neg none_]
    exact Leads.bind Cursor.leads_next (Leads.bind Cursor.leads_next (Cursor.leads_pure _))

theorem reads_leaf {α : Type} {s : Schema α} {name text : String} {f : String → α → α} {es : List Event}
    (known : s.child? name = some (.single (leaf f))) (named : Named (Bytes.ofString name))
    (element : leafElement name text es) : s.Reads name (f text) es := by
  have balanced : Balanced (if text = "" then [] else [.text text]) := by
    split
    · exact .nil
    · exact .text .nil
  exact reads_element known named ordinary_nil balanced element fun t _ rest => leads_leaf f text t t.name rest

end Schema

namespace GameChild

def key : GameChild → String
  | .description _ => "description"
  | .rom _ => "rom"
  | .disk _ => "disk"
  | .part _ => "part"
  | .region _ => "region"

/-- What a child adds to its game. -/
def act : GameChild → GameDraft → GameDraft
  | .description s, g => { g with description := some s }
  | .rom d, g => { g with roms := g.roms ++ [d] }
  | .disk d, g => { g with disks := g.disks ++ [d] }
  | .part areas, g => { g with parts := g.parts ++ [areas] }
  | .region ds, g => { g with regions := g.regions ++ [ds] }

theorem act_commute {c d : GameChild} (other : c.key ≠ d.key) (g : GameDraft) : c.act (d.act g) = d.act (c.act g) := by
  cases c <;> cases d <;> first | rfl | exact absurd rfl other

theorem description?_eq_none {c : GameChild} : c.description? = none ↔ c.key ≠ "description" := by
  cases c <;> simp [description?, key]

/-- The draft of a game that has just the children. -/
def draft (name : String) (cs : List GameChild) : GameDraft where
  name := name
  description := (cs.filterMap description?).getLast?
  roms := cs.filterMap rom?
  disks := cs.filterMap disk?
  parts := cs.filterMap part?
  regions := cs.filterMap region?

theorem draft_concat (name : String) (cs : List GameChild) (c : GameChild) :
    draft name (cs ++ [c]) = c.act (draft name cs) := by
  cases c <;> simp [draft, act, description?, rom?, disk?, part?, region?]

theorem foldl_act (name : String) (cs : List GameChild) :
    cs.foldl (fun g c => c.act g) { GameDraft.blank with name := name } = draft name cs := by
  induction cs using List.reverseRecOn with
  | nil => rfl
  | append_singleton cs c ih => rw [List.foldl_concat, ih, draft_concat]

theorem reads_part {areas : List (List RomDraft)} {es : List Event} (element : partElement areas es) :
    Schema.game.Reads "part" (GameChild.part areas).act es := by
  obtain ⟨body, elements, element⟩ := element
  have reads : ∀ ds ∈ areas, ∀ es, areaElement "dataarea" ds es → Schema.part.Reads "dataarea" (· ++ [ds]) es :=
    fun _ _ _ element => Schema.reads_area (f := fun r d => d ++ [r]) rfl (by decide) element
  refine Schema.reads_each (f := fun p => (GameChild.part p).act) rfl (by decide) ordinary_nil
    (Schema.balanced_elements reads elements) element fun _ shows_ rest => ?_
  exact Schema.leads_row rfl rfl reads shows_ elements rest

theorem named_key (c : GameChild) : Named (Bytes.ofString c.key) := by
  cases c with
  | description s => exact (by decide : Named (Bytes.ofString "description"))
  | rom d => exact (by decide : Named (Bytes.ofString "rom"))
  | disk d => exact (by decide : Named (Bytes.ofString "disk"))
  | part areas => exact (by decide : Named (Bytes.ofString "part"))
  | region ds => exact (by decide : Named (Bytes.ofString "region"))

theorem reads {c : GameChild} {es : List Event} (element : c.element es) : Schema.game.Reads c.key c.act es := by
  have named := named_key c
  cases c with
  | description s => exact Schema.reads_leaf (f := fun s => (GameChild.description s).act) rfl named element
  | rom d => exact Schema.reads_file (f := fun d => (GameChild.rom d).act) rfl named element
  | disk d => exact Schema.reads_file (f := fun d => (GameChild.disk d).act) rfl named element
  | part areas => exact reads_part element
  | region ds => exact Schema.reads_area (f := fun d => (GameChild.region d).act) rfl named element

end GameChild

theorem pairwise_of_few {γ δ : Type} {f : γ → Option δ} {key : γ → String} {Q : γ → Prop} {cs : List γ}
    (few : (cs.filterMap f).length ≤ 1) (alike : ∀ c d, key c = key d → f d = none → f c = none)
    (others : ∀ c, f c = none → Q c) : cs.Pairwise fun c d => key c = key d → Q c := by
  induction cs with
  | nil => exact .nil
  | cons c cs ih =>
    cases found : f c with
    | none =>
      rw [List.filterMap_cons_none found] at few
      exact List.pairwise_cons.mpr ⟨fun _ _ _ => others c found, ih few⟩
    | some x =>
      rw [List.filterMap_cons_some found, List.length_cons] at few
      have none_left : cs.filterMap f = [] := List.eq_nil_of_length_eq_zero (by omega)
      refine List.pairwise_cons.mpr ⟨fun d member same => ?_, ih (by rw [none_left]; exact Nat.zero_le 1)⟩
      have absent := List.filterMap_eq_nil_iff.mp none_left d member
      rw [alike c d same absent] at found
      cases found

theorem GameChild.single {cs : List GameChild} (few : (cs.filterMap description?).length ≤ 1) :
    cs.Pairwise fun c d => c.key = d.key → ∃ kind read, Schema.game.child? c.key = some (.list kind read) := by
  apply pairwise_of_few few
  · intro c d same absent
    rw [description?_eq_none] at absent ⊢
    rwa [same]
  · intro c absent
    cases c with
    | description s => cases absent
    | rom | disk | part | region => exact ⟨_, _, rfl⟩

namespace GameElement

variable {x : GameElement} {g : Game}

def draft (x : GameElement) : GameDraft := GameChild.draft x.name x.children

theorem Shows.few (shows_ : x.Shows g) : (x.children.filterMap GameChild.description?).length ≤ 1 := by
  rcases shows_.description with one | ⟨none_, -⟩
  · rw [one]
    exact Nat.le_refl 1
  · rw [none_]
    exact Nat.zero_le 1

theorem Shows.toGame (shows_ : x.Shows g) : x.draft.toGame = g := by
  have description : (x.children.filterMap GameChild.description?).getLast?.getD "" = g.description := by
    rcases shows_.description with one | ⟨none_, empty⟩
    · rw [one]
      rfl
    · rw [none_, empty]
      rfl
  obtain ⟨name, description', roms, disks, parts, regions⟩ := g
  rw [GameDraft.toGame]
  simp only [draft, GameChild.draft, shows_.name, description, shows_.roms, shows_.disks, shows_.parts, shows_.regions]

theorem ordinary_name (s : String) : Ordinary [("name", .text s)] :=
  ordinary_of_sublist (List.Sublist.refl ["name"]) (by decide) (by decide)

theorem leads {t : Tag} {key : String} {body : List Event} (shows_ : x.Shows g)
    (tag : t.Shows key [("name", .text x.name)]) (elements : Elements GameChild.element x.children body)
    (rest : List Event) : Leads (Schema.game.read t) (body ++ .close t.name :: rest) x.draft rest := by
  have takes : Schema.game.Takes [("name", .text x.name)] fun _ g => { g with name := x.name } := by
    intro p member
    rw [List.mem_singleton.mp member]
    exact ⟨_, rfl, fun b writes => Schema.text_written writes⟩
  have read : Leads (Schema.game.read t) (body ++ .close t.name :: rest) _ rest :=
    Schema.leads_elements tag (ordinary_name x.name) takes (fun _ _ _ _ _ _ => rfl)
      (fun c _ es element => GameChild.reads element) elements (GameChild.single shows_.few)
      fun c _ d _ other => GameChild.act_commute other
  have built : x.children.foldl (fun g c => c.act g) { Schema.game.blank with name := x.name } = x.draft :=
    GameChild.foldl_act x.name x.children
  rw [List.foldl_cons, List.foldl_nil] at read
  rwa [built] at read

theorem reads {s : Schema CatalogDraft} {key kind : String} {f : GameDraft → CatalogDraft → CatalogDraft}
    {es : List Event} (known : s.child? key = some (Schema.each kind Schema.game f))
    (named : Named (Bytes.ofString key)) (shows_ : x.Shows g) (element : x.element key es) : s.Reads key (f x.draft) es := by
  obtain ⟨body, elements, element⟩ := element
  have balanced : Balanced body := Schema.balanced_elements (fun c _ es element => GameChild.reads element) elements
  exact Schema.reads_each known named (ordinary_name x.name) balanced element fun t tag rest =>
    leads shows_ tag elements rest

end GameElement

namespace HeaderChild

def key : HeaderChild → String
  | .name _ => "name"
  | .description _ => "description"

def act : HeaderChild → HeaderDraft → HeaderDraft
  | .name s, h => { h with name := some s }
  | .description s, h => { h with description := some s }

theorem act_commute {c d : HeaderChild} (other : c.key ≠ d.key) (h : HeaderDraft) :
    c.act (d.act h) = d.act (c.act h) := by
  cases c <;> cases d <;> first | rfl | exact absurd rfl other

def draft (cs : List HeaderChild) : HeaderDraft where
  name := (cs.filterMap name?).getLast?
  description := (cs.filterMap description?).getLast?

theorem foldl_act (cs : List HeaderChild) : cs.foldl (fun h c => c.act h) .blank = draft cs := by
  induction cs using List.reverseRecOn with
  | nil => rfl
  | append_singleton cs c ih =>
    rw [List.foldl_concat, ih]
    cases c <;> simp [draft, act, name?, description?]

theorem name?_eq_none {c : HeaderChild} : c.name? = none ↔ c.key ≠ "name" := by
  cases c <;> simp [name?, key]

theorem description?_eq_none {c : HeaderChild} : c.description? = none ↔ c.key ≠ "description" := by
  cases c <;> simp [description?, key]

theorem single {cs : List HeaderChild} (names : (cs.filterMap name?).length ≤ 1)
    (descriptions : (cs.filterMap description?).length ≤ 1) :
    cs.Pairwise fun c d => c.key = d.key → ∃ kind read, Schema.header.child? c.key = some (.list kind read) := by
  have one_name : cs.Pairwise fun c d => c.key = d.key → c.key ≠ "name" := by
    apply pairwise_of_few names
    · intro c d same absent
      rw [name?_eq_none] at absent ⊢
      rwa [same]
    · exact fun c absent => name?_eq_none.mp absent
  have one_description : cs.Pairwise fun c d => c.key = d.key → c.key ≠ "description" := by
    apply pairwise_of_few descriptions
    · intro c d same absent
      rw [description?_eq_none] at absent ⊢
      rwa [same]
    · exact fun c absent => description?_eq_none.mp absent
  refine (one_name.and one_description).imp ?_
  rintro c d ⟨other, other'⟩ same
  cases c with
  | name s => exact absurd rfl (other same)
  | description s => exact absurd rfl (other' same)

theorem reads {c : HeaderChild} {es : List Event} (element : c.element es) : Schema.header.Reads c.key c.act es := by
  cases c with
  | name s =>
    exact Schema.reads_leaf (f := fun s => (HeaderChild.name s).act) rfl
      (by decide : Named (Bytes.ofString "name")) element
  | description s =>
    exact Schema.reads_leaf (f := fun s => (HeaderChild.description s).act) rfl
      (by decide : Named (Bytes.ofString "description")) element

end HeaderChild

namespace RootChild

def key : RootChild → String
  | .header _ => "header"
  | .game _ => "game"
  | .machine _ => "machine"
  | .software _ => "software"

def act : RootChild → CatalogDraft → CatalogDraft
  | .header cs, c => { c with header := some (HeaderChild.draft cs) }
  | .game x, c => { c with games := c.games ++ [x.draft] }
  | .machine x, c => { c with machines := c.machines ++ [x.draft] }
  | .software x, c => { c with software := c.software ++ [x.draft] }

theorem act_commute {c d : RootChild} (other : c.key ≠ d.key) (x : CatalogDraft) :
    c.act (d.act x) = d.act (c.act x) := by
  cases c <;> cases d <;> first | rfl | exact absurd rfl other

theorem header?_eq_none {c : RootChild} : c.header? = none ↔ c.key ≠ "header" := by
  cases c <;> simp [header?, key]

theorem single {cs : List RootChild} (few : (cs.filterMap header?).length ≤ 1) :
    cs.Pairwise fun c d => c.key = d.key → ∃ kind read, Schema.catalog.child? c.key = some (.list kind read) := by
  apply pairwise_of_few few
  · intro c d same absent
    rw [header?_eq_none] at absent ⊢
    rwa [same]
  · intro c absent
    cases c with
    | header cs => cases absent
    | game | machine | software => exact ⟨_, _, rfl⟩

/-- A child that can be written: its texts have no blanks around them, and it is the element of some game, or a header
that names nothing twice. -/
def Proper : RootChild → Prop
  | .header cs => (cs.filterMap HeaderChild.name?).length ≤ 1 ∧ (cs.filterMap HeaderChild.description?).length ≤ 1 ∧
      (∀ s ∈ cs.filterMap HeaderChild.name?, Text.trim s = s) ∧
      ∀ s ∈ cs.filterMap HeaderChild.description?, Text.trim s = s
  | .game x | .machine x | .software x => ∃ g, x.Shows g ∧ Text.trim g.description = g.description

theorem reads_header {cs : List HeaderChild} {es : List Event} (proper : (RootChild.header cs).Proper)
    (element : (RootChild.header cs).element es) : Schema.catalog.Reads "header" (RootChild.header cs).act es := by
  obtain ⟨names, descriptions, -⟩ := proper
  obtain ⟨body, elements, element⟩ := element
  have reads : ∀ c ∈ cs, ∀ es, c.element es → Schema.header.Reads c.key c.act es :=
    fun c _ es element => HeaderChild.reads element
  refine Schema.reads_element rfl (by decide) ordinary_nil (Schema.balanced_elements reads elements) element ?_
  intro t shows_ rest
  have read : Leads (Schema.header.read t) (body ++ .close t.name :: rest) _ rest :=
    Schema.leads_elements shows_ ordinary_nil (Schema.takes_nil _) (List.forall_mem_nil _) reads elements
      (HeaderChild.single names descriptions) fun c _ d _ other => HeaderChild.act_commute other
  have built : cs.foldl (fun h c => c.act h) Schema.header.blank = HeaderChild.draft cs := HeaderChild.foldl_act cs
  rw [List.foldl_nil, built] at read
  exact Leads.bind read (Cursor.leads_pure _)

theorem reads {c : RootChild} {es : List Event} (proper : c.Proper) (element : c.element es) :
    Schema.catalog.Reads c.key c.act es := by
  cases c with
  | header cs => exact reads_header proper element
  | game x =>
    obtain ⟨g, shows_, -⟩ := proper
    exact GameElement.reads (f := fun d c => { c with games := c.games ++ [d] }) rfl
      (by decide : Named (Bytes.ofString "game")) shows_ element
  | machine x =>
    obtain ⟨g, shows_, -⟩ := proper
    exact GameElement.reads (f := fun d c => { c with machines := c.machines ++ [d] }) rfl
      (by decide : Named (Bytes.ofString "machine")) shows_ element
  | software x =>
    obtain ⟨g, shows_, -⟩ := proper
    exact GameElement.reads (f := fun d c => { c with software := c.software ++ [d] }) rfl
      (by decide : Named (Bytes.ofString "software")) shows_ element

end RootChild

namespace Datafile

variable {x : Datafile} {c : Catalog}

def draft (x : Datafile) : CatalogDraft where
  name := x.name
  description := x.description
  header := (x.children.filterMap RootChild.header?).getLast?.map HeaderChild.draft
  games := (x.children.filterMap RootChild.game?).map GameElement.draft
  machines := (x.children.filterMap RootChild.machine?).map GameElement.draft
  software := (x.children.filterMap RootChild.software?).map GameElement.draft

theorem foldl_act (x : Datafile) : x.children.foldl (fun d c => c.act d)
    { CatalogDraft.blank with name := x.name, description := x.description } = x.draft := by
  obtain ⟨root, name, description, children⟩ := x
  induction children using List.reverseRecOn with
  | nil => rfl
  | append_singleton cs c ih =>
    rw [List.foldl_concat, ih]
    cases c <;>
      simp [draft, RootChild.act, RootChild.header?, RootChild.game?, RootChild.machine?, RootChild.software?]

/-- What an attribute of the root sets. -/
def take : String × Value → CatalogDraft → CatalogDraft
  | ("name", .text s), c => { c with name := some s }
  | ("description", .text s), c => { c with description := some s }
  | _, c => c

theorem ordinary (x : Datafile) : Ordinary x.attributes := by
  have keys : (x.attributes.map Prod.fst).Sublist ["name", "description"] := by
    rw [attributes, List.map_append]
    exact (keys_optional "name" x.name).append (keys_optional "description" x.description)
  exact ordinary_of_sublist keys (by decide) (by decide)

theorem mem_attributes {p : String × Value} (member : p ∈ x.attributes) :
    (∃ s, p = ("name", .text s)) ∨ ∃ s, p = ("description", .text s) := by
  rw [attributes, List.mem_append, mem_optional, mem_optional] at member
  rcases member with ⟨s, -, same⟩ | ⟨s, -, same⟩
  · exact .inl ⟨s, same⟩
  · exact .inr ⟨s, same⟩

theorem takes (x : Datafile) : Schema.catalog.Takes x.attributes take := by
  intro p member
  rcases mem_attributes member with ⟨s, rfl⟩ | ⟨s, rfl⟩
  · exact ⟨_, rfl, fun b writes => Schema.text_written writes⟩
  · exact ⟨_, rfl, fun b writes => Schema.text_written writes⟩

theorem exchange (x : Datafile) : ∀ p ∈ x.attributes, ∀ q ∈ x.attributes, p.1 ≠ q.1 →
    ∀ a, take p (take q a) = take q (take p a) := by
  intro p member q member' other a
  rcases mem_attributes member with ⟨s, rfl⟩ | ⟨s, rfl⟩ <;> rcases mem_attributes member' with ⟨s', rfl⟩ | ⟨s', rfl⟩ <;>
    first | rfl | exact absurd rfl other

theorem take_attributes (x : Datafile) : x.attributes.foldl (fun c p => take p c) .blank =
    { CatalogDraft.blank with name := x.name, description := x.description } := by
  obtain ⟨root, name, description, children⟩ := x
  cases name <;> cases description <;> rfl

theorem leads {es : List Event} (few : (x.children.filterMap RootChild.header?).length ≤ 1)
    (proper : ∀ c ∈ x.children, c.Proper) (element : x.element es) : Leads Markup.root es x.draft [] := by
  obtain ⟨body, elements, t, shows_, rfl⟩ := element
  have reads : ∀ c ∈ x.children, ∀ es, c.element es → Schema.catalog.Reads c.key c.act es :=
    fun c member es element => RootChild.reads (proper c member) element
  have read : Leads (Schema.catalog.read t) (body ++ .close t.name :: []) _ [] :=
    Schema.leads_elements shows_ x.ordinary x.takes x.exchange reads elements (RootChild.single few)
      fun c _ d _ other => RootChild.act_commute other
  have attributes : x.attributes.foldl (fun c p => take p c) Schema.catalog.blank =
      { CatalogDraft.blank with name := x.name, description := x.description } := x.take_attributes
  rw [attributes, x.foldl_act] at read
  exact Leads.bind Cursor.leads_next read

theorem getLast?_of_few {α : Type} {xs : List α} (few : xs.length ≤ 1) : xs.getLast? = xs.head? := by
  cases xs with
  | nil => rfl
  | cons a xs =>
    rw [List.length_cons] at few
    rw [List.eq_nil_of_length_eq_zero (l := xs) (by omega)]
    rfl

theorem header_draft (shows_ : x.Shows c) :
    x.draft.header.bind HeaderDraft.name = (x.headed.filterMap HeaderChild.name?).head? ∧
      x.draft.header.bind HeaderDraft.description = (x.headed.filterMap HeaderChild.description?).head? := by
  have few := shows_.headers
  have names := getLast?_of_few shows_.names
  have descriptions := getLast?_of_few shows_.descriptions
  rw [← names, ← descriptions, draft, headed]
  generalize x.children.filterMap RootChild.header? = headers at few
  cases headers with
  | nil => exact ⟨rfl, rfl⟩
  | cons cs headers =>
    rw [List.length_cons] at few
    rw [List.eq_nil_of_length_eq_zero (l := headers) (by omega), List.flatten_cons, List.flatten_nil, List.append_nil]
    exact ⟨rfl, rfl⟩

theorem map_toGame {xs : List GameElement} {gs : List Game} (shows_ : List.Forall₂ GameElement.Shows xs gs) :
    (xs.map GameElement.draft).map GameDraft.toGame = gs := by
  induction shows_ with
  | nil => rfl
  | cons front later ih => rw [List.map_cons, List.map_cons, front.toGame, ih]

theorem Shows.toCatalog (shows_ : x.Shows c) : x.draft.toCatalog = c := by
  obtain ⟨names, descriptions⟩ := header_draft shows_
  have games : (x.draft.games ++ x.draft.machines).map GameDraft.toGame = c.games := by
    rw [draft, ← List.map_append]
    exact map_toGame shows_.games
  have software : x.draft.software.map GameDraft.toGame = c.software := map_toGame shows_.software
  have name : ((x.headed.filterMap HeaderChild.name?).head?.or x.draft.name).getD "" = c.name := shows_.name
  have description :
      ((x.headed.filterMap HeaderChild.description?).head?.or x.draft.description).getD "" = c.description :=
    shows_.description
  rw [CatalogDraft.toCatalog, names, descriptions, games, software, name, description]

theorem eq_singleton_of_few {α : Type} {xs : List α} {a : α} (few : xs.length ≤ 1) (member : a ∈ xs) : xs = [a] := by
  cases xs with
  | nil => cases member
  | cons b xs =>
    rw [List.length_cons] at few
    obtain rfl : xs = [] := List.eq_nil_of_length_eq_zero (by omega)
    rw [List.mem_singleton.mp member]

theorem headed_of_mem {cs : List HeaderChild} (shows_ : x.Shows c) (member : RootChild.header cs ∈ x.children) :
    x.headed = cs := by
  have among : cs ∈ x.children.filterMap RootChild.header? := List.mem_filterMap.mpr ⟨_, member, rfl⟩
  rw [headed, eq_singleton_of_few shows_.headers among, List.flatten_singleton]

theorem exists_shown {xs : List GameElement} {gs : List Game} (shows_ : List.Forall₂ GameElement.Shows xs gs)
    (same : gs.map Game.normalize = gs) {e : GameElement} (member : e ∈ xs) :
    ∃ g, e.Shows g ∧ Text.trim g.description = g.description := by
  obtain ⟨g, among, shown⟩ := exists_of_forall₂ shows_.flip member
  have normal : g.normalize = g := List.map_inj_left.mp (same.trans (List.map_id gs).symm) g among
  exact ⟨g, shown, congrArg Game.description normal⟩

theorem Shows.proper (shows_ : x.Shows c) (normal : c.normalize = c) : ∀ child ∈ x.children, child.Proper := by
  have name : Text.trim c.name = c.name := congrArg Catalog.name normal
  have description : Text.trim c.description = c.description := congrArg Catalog.description normal
  have games : c.games.map Game.normalize = c.games := congrArg Catalog.games normal
  have software : c.software.map Game.normalize = c.software := congrArg Catalog.software normal
  intro child member
  cases child with
  | header cs =>
    have whole := headed_of_mem shows_ member
    refine ⟨whole ▸ shows_.names, whole ▸ shows_.descriptions, ?_, ?_⟩
    · intro s among
      have one := eq_singleton_of_few (whole ▸ shows_.names) among
      have held := shows_.name
      rw [whole, one] at held
      exact (congrArg Text.trim held).trans (name.trans held.symm)
    · intro s among
      have one := eq_singleton_of_few (whole ▸ shows_.descriptions) among
      have held := shows_.description
      rw [whole, one] at held
      exact (congrArg Text.trim held).trans (description.trans held.symm)
  | game e =>
    have among : e ∈ x.children.filterMap RootChild.game? := List.mem_filterMap.mpr ⟨_, member, rfl⟩
    exact exists_shown shows_.games games (List.mem_append_left _ among)
  | machine e =>
    have among : e ∈ x.children.filterMap RootChild.machine? := List.mem_filterMap.mpr ⟨_, member, rfl⟩
    exact exists_shown shows_.games games (List.mem_append_right _ among)
  | software e => exact exists_shown shows_.software software (List.mem_filterMap.mpr ⟨_, member, rfl⟩)

end Datafile

end RomLedger.Markup
