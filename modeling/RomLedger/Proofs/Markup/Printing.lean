import RomLedger.Proofs.Markup.Datafile

/- One way of writing each datafile: no blanks but those between attributes, every value in double quotes, and
   an end tag for every element. -/
namespace RomLedger.Markup

def escapeChar (c : Char) : List Char :=
  if c = '<' then ['&', 'l', 't', ';']
  else if c = '&' then ['&', 'a', 'm', 'p', ';']
  else if c = '"' then ['&', 'q', 'u', 'o', 't', ';']
  else [c]

def printText (s : String) : Bytes := Bytes.ofString (String.ofList (s.toList.flatMap escapeChar))

theorem letters {name : List Char} (all : name.all (fun d => d.isAlphanum || d == '#') = true) :
    ∀ d ∈ name, d.isAlphanum = true ∨ d = '#' := by simpa using all

theorem escaped_escape (cs : List Char) : Escaped cs (cs.flatMap escapeChar) := by
  induction cs with
  | nil => exact .nil
  | cons c cs ih =>
    rw [List.flatMap_cons]
    by_cases opens : c = '<'
    · subst c
      exact @Escaped.reference '<' ['l', 't'] _ _ rfl (letters rfl) ih
    · by_cases refers : c = '&'
      · subst c
        exact @Escaped.reference '&' ['a', 'm', 'p'] _ _ rfl (letters rfl) ih
      · by_cases quotes : c = '"'
        · subst c
          exact @Escaped.reference '"' ['q', 'u', 'o', 't'] _ _ rfl (letters rfl) ih
        · have plain : escapeChar c = [c] := by simp [escapeChar, opens, refers, quotes]
          rw [plain]
          exact .plain ⟨opens, refers⟩ ih

theorem writes_printText (s : String) : Writes s (printText s) := ⟨_, escaped_escape s.toList, rfl⟩

theorem not_mem_escapeChar (c : Char) : '"' ∉ escapeChar c := by
  unfold escapeChar
  split
  · decide
  · split
    · decide
    · split
      · decide
      · rename_i other
        rw [List.mem_singleton]
        exact fun same => other same.symm

def doubleQuote : UInt8 := 34

def Value.print : Value → Bytes
  | .text s => printText s
  | .number n => Bytes.ofString (toString n.toNat)

theorem Value.writes_print (v : Value) : v.Writes v.print := by
  cases v with
  | text s => exact writes_printText s
  | number n => rfl

theorem Value.quote_print (v : Value) : doubleQuote ∉ v.print := by
  intro member
  cases v with
  | text s =>
    have among := char_of_ascii (by decide) member
    rw [String.toList_ofList] at among
    obtain ⟨c, -, inside⟩ := List.mem_flatMap.mp among
    exact not_mem_escapeChar c inside
  | number n =>
    have digit := Coercion.isDigit_toString (char_of_ascii (by decide) member)
    revert digit
    decide

def printAttributes (as : List (String × Value)) : Bytes :=
  as.flatMap fun p => 32 :: (Bytes.ofString p.1 ++ Attribute.equals :: doubleQuote :: (p.2.print ++ [doubleQuote]))

theorem listed_print (as : List (String × Value)) : Listed as (printAttributes as) := by
  induction as with
  | nil => exact .nil (List.forall_mem_nil _)
  | cons p as ih =>
    have blank : ∀ c ∈ [32], isBlank c = true := List.forall_mem_singleton.mpr rfl
    have written : Listed (p :: as) ([32] ++ (Bytes.ofString p.1 ++ ([] ++ Attribute.equals :: ([] ++ doubleQuote ::
        (p.2.print ++ doubleQuote :: printAttributes as))))) :=
      .cons (List.cons_ne_nil 32 []) blank (List.forall_mem_nil _) rfl p.2.writes_print p.2.quote_print ih
    simpa [printAttributes] using written

def elementEvents (name : String) (as : List (String × Value)) (body : List Event) : List Event :=
  .start ⟨Bytes.ofString name, printAttributes as⟩ :: (body ++ [.close (Bytes.ofString name)])

theorem element_events (name : String) (as : List (String × Value)) (body : List Event) :
    Element name as body (elementEvents name as body) :=
  ⟨⟨Bytes.ofString name, printAttributes as⟩, ⟨rfl, as, .refl as, listed_print as⟩, rfl⟩

theorem elements_flatMap {γ : Type} {R : γ → List Event → Prop} {f : γ → List Event} {cs : List γ}
    (each : ∀ c ∈ cs, R c (f c)) : Elements R cs (cs.flatMap f) := by
  refine ⟨cs.map f, ?_, List.flatMap_def⟩
  rw [List.forall₂_map_right_iff, List.forall₂_same]
  exact each

def fileEvents (name : String) (d : RomDraft) : List Event := elementEvents name d.attributes []

def areaEvents (name : String) (ds : List RomDraft) : List Event :=
  elementEvents name [] (ds.flatMap (fileEvents "rom"))

def leafEvents (name s : String) : List Event := elementEvents name [] (if s = "" then [] else [.text s])

theorem area_events (name : String) (ds : List RomDraft) : areaElement name ds (areaEvents name ds) :=
  ⟨_, elements_flatMap fun _ _ => element_events _ _ _, element_events _ _ _⟩

def GameChild.events : GameChild → List Event
  | .description s => leafEvents "description" s
  | .rom d => fileEvents "rom" d
  | .disk d => fileEvents "disk" d
  | .part areas => elementEvents "part" [] (areas.flatMap (areaEvents "dataarea"))
  | .region ds => areaEvents "region" ds

theorem GameChild.element_events (c : GameChild) : c.element c.events := by
  cases c with
  | description | rom | disk => exact Markup.element_events _ _ _
  | part areas => exact ⟨_, elements_flatMap fun ds _ => area_events "dataarea" ds, Markup.element_events _ _ _⟩
  | region ds => exact area_events "region" ds

def GameElement.events (key : String) (x : GameElement) : List Event :=
  elementEvents key [("name", .text x.name)] (x.children.flatMap GameChild.events)

theorem GameElement.element_events (key : String) (x : GameElement) : x.element key (x.events key) :=
  ⟨_, elements_flatMap fun c _ => c.element_events, Markup.element_events _ _ _⟩

def HeaderChild.events : HeaderChild → List Event
  | .name s => leafEvents "name" s
  | .description s => leafEvents "description" s

theorem HeaderChild.element_events (c : HeaderChild) : c.element c.events := by
  cases c <;> exact Markup.element_events _ _ _

def RootChild.events : RootChild → List Event
  | .header cs => elementEvents "header" [] (cs.flatMap HeaderChild.events)
  | .game x => x.events "game"
  | .machine x => x.events "machine"
  | .software x => x.events "software"

theorem RootChild.element_events (c : RootChild) : c.element c.events := by
  cases c with
  | header cs => exact ⟨_, elements_flatMap fun c _ => c.element_events, Markup.element_events _ _ _⟩
  | game x | machine x | software x => exact x.element_events _

def Datafile.events (x : Datafile) : List Event :=
  elementEvents x.root x.attributes (x.children.flatMap RootChild.events)

theorem Datafile.element_events (x : Datafile) : x.element x.events :=
  ⟨_, elements_flatMap fun c _ => c.element_events, Markup.element_events _ _ _⟩

def Event.print : Event → Bytes
  | .start t => Scanner.lessThan :: (t.content ++ [Scanner.greaterThan])
  | .close name => Scanner.lessThan :: Scanner.slash :: (name ++ [Scanner.greaterThan])
  | .text s => printText s
  | .ended => []

/-- The events are written as they are printed, whatever comes behind them. -/
def Prints (es : List Event) : Prop :=
  ∀ opened es' rest, Written opened es' rest → Written opened (es ++ es') (es.flatMap Event.print ++ rest)

theorem prints_flatMap {γ : Type} {f : γ → List Event} {cs : List γ} (each : ∀ c ∈ cs, Prints (f c)) :
    Prints (cs.flatMap f) := by
  induction cs with
  | nil => exact fun _ _ _ later => later
  | cons c cs ih =>
    obtain ⟨front, others⟩ := List.forall_mem_cons.mp each
    intro opened es' rest later
    have written := front _ _ _ (ih others _ _ _ later)
    simpa using written

theorem written_start {opened : List Bytes} {t : Tag} {es : List Event} {rest : Bytes}
    (later : Written (t.name :: opened) es rest) :
    Written opened (.start t :: es) ((Event.start t).print ++ rest) := by
  have written : Written opened (.start t :: es)
      ([] ++ Scanner.lessThan :: (t.content ++ Scanner.greaterThan :: rest)) :=
    .start (List.forall_mem_nil _) later
  simpa [Event.print] using written

theorem written_close {opened : List Bytes} {name : Bytes} {es : List Event} {rest : Bytes}
    (later : Written opened es rest) :
    Written (name :: opened) (.close name :: es) ((Event.close name).print ++ rest) := by
  have written : Written (name :: opened) (.close name :: es)
      ([] ++ Scanner.lessThan :: Scanner.slash :: (name ++ ([] ++ Scanner.greaterThan :: rest))) :=
    .close (List.forall_mem_nil _) later
  simpa [Event.print] using written

theorem prints_element {name : String} {as : List (String × Value)} {body : List Event} (inside : Prints body) :
    Prints (elementEvents name as body) := by
  intro opened es' rest later
  have written := written_start (t := ⟨Bytes.ofString name, printAttributes as⟩) (inside _ _ _ (written_close later))
  simpa [elementEvents] using written

theorem prints_leaf (name s : String) : Prints (leafEvents name s) := by
  by_cases none_ : s = ""
  · have empty : leafEvents name s = elementEvents name [] [] := by rw [leafEvents, if_pos none_]
    rw [empty]
    exact prints_element fun _ _ _ later => later
  · intro opened es' rest later
    have text : Written (Bytes.ofString name :: opened) (.text s :: .close (Bytes.ofString name) :: es')
        (printText s ++ ((Event.close (Bytes.ofString name)).print ++ rest)) :=
      .text (writes_printText s) (written_close later)
    have written := written_start (t := ⟨Bytes.ofString name, printAttributes []⟩) text
    simpa [leafEvents, elementEvents, if_neg none_, Event.print] using written

theorem prints_file (name : String) (d : RomDraft) : Prints (fileEvents name d) :=
  prints_element fun _ _ _ later => later

theorem prints_area (name : String) (ds : List RomDraft) : Prints (areaEvents name ds) :=
  prints_element (prints_flatMap fun d _ => prints_file "rom" d)

theorem GameChild.prints (c : GameChild) : Prints c.events := by
  cases c with
  | description s => exact prints_leaf "description" s
  | rom d => exact prints_file "rom" d
  | disk d => exact prints_file "disk" d
  | part areas => exact prints_element (prints_flatMap fun ds _ => prints_area "dataarea" ds)
  | region ds => exact prints_area "region" ds

theorem RootChild.prints (c : RootChild) : Prints c.events := by
  cases c with
  | header cs =>
    refine prints_element (prints_flatMap fun c _ => ?_)
    cases c with
    | name s => exact prints_leaf "name" s
    | description s => exact prints_leaf "description" s
  | game x | machine x | software x => exact prints_element (prints_flatMap fun c _ => c.prints)

namespace Datafile

def print (x : Datafile) : Bytes :=
  Bytes.ofString "<?xml version=\"1.0\"?>" ++ x.events.flatMap Event.print

/-- Every datafile can be written. -/
theorem document_print (x : Datafile) : Document x.events x.print := by
  have inside : Prints x.events := prints_element (prints_flatMap fun c _ => c.prints)
  have written := inside [] [] [] (.ended (List.forall_mem_nil _))
  rw [List.append_nil, List.append_nil] at written
  have declaration : Bytes.ofString "<?xml version=\"1.0\"?>" = Scanner.lessThan ::
      (Bytes.ofString "?xml" ++ (Bytes.ofString " version=\"1.0\"" ++ Bytes.ofString "?>")) := by decide
  refine ⟨Bytes.ofString " version=\"1.0\"", x.events.flatMap Event.print, by decide, written, ?_⟩
  rw [print, declaration]
  simp

end Datafile

end RomLedger.Markup
