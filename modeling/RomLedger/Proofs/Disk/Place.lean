import RomLedger.Disk.Basic

/- Where paths lead. -/
namespace RomLedger.Disk

variable {σ : Type}

theorem lookup_filter_key (keep : Place → Bool) (entries : List (Place × Entry σ)) (q : Place) :
    (entries.filter fun e => keep e.1).lookup q = if keep q then entries.lookup q else none := by
  induction entries with
  | nil => simp
  | cons e rest ih =>
    obtain ⟨p, e⟩ := e
    by_cases same : q = p
    · subst same
      by_cases kept : keep q <;> simp [kept, ih]
    · have other : (q == p) = false := by simpa using same
      by_cases kept : keep p <;> simp [List.lookup_cons, kept, ih, other]

theorem get?_clear (d : Disk σ) {p : Place} (inner : p ≠ []) (q : Place) :
    (d.clear p).get? q = if q = p then none else d.get? q := by
  have keep := lookup_filter_key (fun k => decide (k ≠ p)) d.entries q
  simp only [get?, clear, keep]
  by_cases top : q = []
  · simp [top, Ne.symm inner]
  · by_cases same : q = p
    · simp [same, inner]
    · simp [top, same]

theorem get?_set (d : Disk σ) {p : Place} (inner : p ≠ []) (e : Entry σ) (q : Place) :
    (d.set p e).get? q = if q = p then some e else d.get? q := by
  have cleared := get?_clear d inner q
  simp only [get?] at cleared ⊢
  by_cases top : q = []
  · simp [top, Ne.symm inner]
  · by_cases same : q = p
    · simp [same, inner, set]
    · have other : (q == p) = false := by simpa using same
      simpa [top, same, set, List.lookup_cons, other] using cleared

def Bare (d : Disk σ) (p : Place) : Prop := ∀ e ∈ d.entries, p <+: e.1 → e.1 = p

instance (d : Disk σ) (p : Place) : Decidable (d.Bare p) :=
  inferInstanceAs (Decidable (∀ e ∈ d.entries, p <+: e.1 → e.1 = p))

theorem lookup_moved {source : Place} (target : Place) {entries : List (Place × Entry σ)}
    (bare : ∀ e ∈ entries, source <+: e.1 → e.1 = source) (q : Place) :
    ((entries.filter (within source)).map fun e => (target ++ e.1.drop source.length, e.2)).lookup q
      = if q = target then entries.lookup source else none := by
  induction entries with
  | nil => simp
  | cons e rest ih =>
    obtain ⟨p, e⟩ := e
    have ih := ih fun e member => bare e (List.mem_cons_of_mem _ member)
    by_cases inside : source.isPrefixOf p
    · have same : p = source :=
        bare (p, e) List.mem_cons_self (List.isPrefixOf_iff_prefix.mp inside)
      subst same
      by_cases there : q = target
      · simp [within, inside, there]
      · have missed : (q == target) = false := by simpa using there
        simpa [within, List.lookup_cons, inside, there, missed] using ih
    · have other : (source == p) = false := by
        refine beq_eq_false_iff_ne.mpr fun same => inside ?_
        rw [← same]
        exact List.isPrefixOf_iff_prefix.mpr List.prefix_rfl
      simpa [within, List.lookup_cons, inside, other] using ih

theorem get?_move {d : Disk σ} {source target : Place} (bare : d.Bare source) (inner : source ≠ [])
    (inner' : target ≠ []) (apart : source ≠ target) (q : Place) :
    (d.move source target).get? q
      = if q = target then d.get? source else if q = source then none else d.get? q := by
  have kept := lookup_filter_key
    (fun k => !source.isPrefixOf k && decide (k ≠ target)) d.entries q
  have moved := lookup_moved target bare q
  by_cases top : q = []
  · simp [get?, top, Ne.symm inner, Ne.symm inner']
  · simp only [get?, top, ↓reduceIte, inner, move, List.lookup_append, within] at kept moved ⊢
    rw [moved, kept]
    by_cases there : q = target
    · simp [there]
    · by_cases same : q = source
      · have here : source.isPrefixOf source = true :=
          List.isPrefixOf_iff_prefix.mpr List.prefix_rfl
        simp [same, apart, here]
      · simp only [there, same, ↓reduceIte, Option.none_or, decide_not, decide_false, Bool.not_false,
          Bool.and_true]
        by_cases inside : source.isPrefixOf q
        · have absent : d.entries.lookup q = none := by
            refine List.lookup_eq_none_iff.mpr fun e member => ?_
            refine bne_iff_ne.mpr fun key => same ?_
            rw [key]
            exact bare e member (key ▸ List.isPrefixOf_iff_prefix.mp inside)
          simp [absent]
        · simp [inside]

/-- Nothing, a file or a store: what a look-up cannot go on from. -/
def Dead : Option (Entry σ) → Prop
  | some .dir | some (.link _) => False
  | _ => True

instance : (e : Option (Entry σ)) → Decidable (Dead e)
  | some .dir | some (.link _) => isFalse id
  | none | some (.file _) | some (.store _) => isTrue trivial

section

variable {d d' : Disk σ} {jump jump' : Place → List String → Except Fault Place} {here place : Place}
  {names : List String}

theorem followWith_cons {through : Bool} {name : String} {rest : List String}
    (leads : d.followWith through jump here (name :: rest) = .ok place)
    (directory : d.get? place = some .dir) :
    d.get? here = some .dir ∧
      (name = "." ∧ d.followWith through jump here rest = .ok place ∨
        name = ".." ∧ d.followWith through jump here.dropLast rest = .ok place ∨
        name ≠ "." ∧ name ≠ ".." ∧
          ((∃ target, d.get? (here ++ [name]) = some (.link target) ∧
              jump (if Path.isAbsolute target then [] else here) (Path.namesOf target ++ rest)
                = .ok place) ∨
            d.get? (here ++ [name]) = some .dir ∧
              d.followWith through jump (here ++ [name]) rest = .ok place)) := by
  simp only [followWith] at leads
  split at leads
  · rename_i open_
    refine ⟨open_, ?_⟩
    split at leads
    · rename_i dot
      exact .inl ⟨dot, leads⟩
    · rename_i proper
      split at leads
      · rename_i dots
        exact .inr (.inl ⟨dots, leads⟩)
      · rename_i proper'
        refine .inr (.inr ⟨proper, proper', ?_⟩)
        split at leads
        · rename_i target found
          split at leads
          · cases leads
            simp [found] at directory
          · exact .inl ⟨target, found, leads⟩
        · rename_i e other found
          cases rest with
          | nil =>
            cases leads
            exact .inr ⟨directory, rfl⟩
          | cons next more =>
            refine .inr ⟨?_, leads⟩
            simp only [followWith, found] at leads
            split at leads
            · rename_i open_
              rwa [found]
            · cases leads
        · rename_i found
          split at leads
          · cases leads
            simp [found] at directory
          · cases leads
  · cases leads

theorem followWith_frame (keeps : ∀ p, ¬Dead (d.get? p) → d'.get? p = d.get? p)
    (jumps : ∀ here names, jump here names = .ok place → jump' here names = .ok place)
    (leads : d.followWith true jump here names = .ok place) (directory : d.get? place = some .dir) :
    d'.followWith true jump' here names = .ok place := by
  have same {p : Place} {e : Entry σ} (found : d.get? p = some e) (live : ¬Dead (some e)) :
      d'.get? p = some e := by
    rw [← found] at live ⊢
    exact keeps p live
  induction names generalizing here with
  | nil => exact leads
  | cons name rest ih =>
    obtain ⟨inside, cases⟩ := followWith_cons leads directory
    simp only [followWith, same inside id]
    rcases cases with ⟨dot, more⟩ | ⟨dots, more⟩ | ⟨proper, proper', link | ⟨child, more⟩⟩
    · rw [if_pos dot]
      exact ih more
    · have proper : name ≠ "." := by simp [dots]
      rw [if_neg proper, if_pos dots]
      exact ih more
    · obtain ⟨target, found, more⟩ := link
      rw [if_neg proper, if_neg proper']
      simp only [same found id, Bool.not_true, Bool.and_false, Bool.false_eq_true, ↓reduceIte]
      exact jumps _ _ more
    · rw [if_neg proper, if_neg proper']
      simp only [same child id]
      exact ih more

theorem followWith_snoc {through : Bool} {last : String} (proper : last ≠ "." ∧ last ≠ "..")
    (unlinked : ∀ target, d.get? (place ++ [last]) ≠ some (.link target))
    (jumps : ∀ here names, jump here names = .ok place →
      jump' here (names ++ [last]) = .ok (place ++ [last]))
    (leads : d.followWith true jump here names = .ok place) (directory : d.get? place = some .dir) :
    d.followWith through jump' here (names ++ [last]) = .ok (place ++ [last]) := by
  induction names generalizing here with
  | nil =>
    cases leads
    simp only [List.nil_append, followWith, directory, proper.1, proper.2, ↓reduceIte]
    split
    · rename_i target found
      exact absurd found (unlinked target)
    · rfl
    · rfl
  | cons name rest ih =>
    obtain ⟨inside, cases⟩ := followWith_cons leads directory
    have more_names : (rest ++ [last]).isEmpty = false := by simp
    simp only [List.cons_append, followWith, inside]
    rcases cases with ⟨dot, more⟩ | ⟨dots, more⟩ | ⟨proper, proper', link | ⟨child, more⟩⟩
    · rw [if_pos dot]
      exact ih more
    · have proper : name ≠ "." := by simp [dots]
      rw [if_neg proper, if_pos dots]
      exact ih more
    · obtain ⟨target, found, more⟩ := link
      rw [if_neg proper, if_neg proper']
      simp only [found, more_names, Bool.false_and, Bool.false_eq_true, ↓reduceIte]
      rw [← List.append_assoc]
      exact jumps _ _ more
    · rw [if_neg proper, if_neg proper']
      simp only [child]
      exact ih more

theorem followWith_of_snoc {through : Bool} {last : String}
    (jumps : ∀ here names, jump' here (names ++ [last]) = .ok place →
      ∃ above, jump here names = .ok above ∧ d.get? above = some .dir)
    (found : d.followWith through jump' here (names ++ [last]) = .ok place) :
    ∃ above, d.followWith true jump here names = .ok above ∧ d.get? above = some .dir := by
  induction names generalizing here with
  | nil =>
    refine ⟨here, rfl, ?_⟩
    simp only [List.nil_append, followWith] at found
    split at found
    · assumption
    · cases found
  | cons name rest ih =>
    simp only [List.cons_append, followWith] at found ⊢
    split at found
    · split at found
      · rename_i dot
        rw [if_pos dot]
        exact ih found
      · rename_i proper
        rw [if_neg proper]
        split at found
        · rename_i dots
          rw [if_pos dots]
          exact ih found
        · rename_i proper'
          rw [if_neg proper']
          have more_names : (rest ++ [last]).isEmpty = false := by simp
          split at found
          · simp only [more_names, Bool.false_and, Bool.false_eq_true, ↓reduceIte,
              ← List.append_assoc] at found
            simpa using jumps _ _ found
          · exact ih found
          · simp [more_names] at found
    · cases found

/-- What leads to a directory leads to something even if the last link is not followed. -/
theorem followWith_present
    (jumps : ∀ here names, jump here names = .ok place →
      ∃ p e, jump' here names = .ok p ∧ d.get? p = some e)
    (leads : d.followWith true jump here names = .ok place) (directory : d.get? place = some .dir) :
    ∃ p e, d.followWith false jump' here names = .ok p ∧ d.get? p = some e := by
  induction names generalizing here with
  | nil =>
    cases leads
    exact ⟨_, _, rfl, directory⟩
  | cons name rest ih =>
    obtain ⟨inside, cases⟩ := followWith_cons leads directory
    simp only [followWith, inside]
    rcases cases with ⟨dot, more⟩ | ⟨dots, more⟩ | ⟨proper, proper', link | ⟨child, more⟩⟩
    · rw [if_pos dot]
      exact ih more
    · have proper : name ≠ "." := by simp [dots]
      rw [if_neg proper, if_pos dots]
      exact ih more
    · obtain ⟨target, found, more⟩ := link
      rw [if_neg proper, if_neg proper']
      simp only [found]
      split
      · exact ⟨_, _, rfl, found⟩
      · exact jumps _ _ more
    · rw [if_neg proper, if_neg proper']
      simp only [child]
      exact ih more

end

section

variable {d d' : Disk σ} {links : Nat} {here place : Place} {names : List String}

theorem follow_frame (keeps : ∀ p, ¬Dead (d.get? p) → d'.get? p = d.get? p)
    (leads : d.follow true links here names = .ok place) (directory : d.get? place = some .dir) :
    d'.follow true links here names = .ok place := by
  induction links generalizing here names with
  | zero => exact followWith_frame keeps (fun _ _ more => by cases more) leads directory
  | succ links ih => exact followWith_frame keeps (fun _ _ more => ih more) leads directory

theorem follow_snoc {through : Bool} {last : String} (proper : last ≠ "." ∧ last ≠ "..")
    (unlinked : ∀ target, d.get? (place ++ [last]) ≠ some (.link target))
    (leads : d.follow true links here names = .ok place) (directory : d.get? place = some .dir) :
    d.follow through links here (names ++ [last]) = .ok (place ++ [last]) := by
  induction links generalizing here names with
  | zero => exact followWith_snoc proper unlinked (fun _ _ more => by cases more) leads directory
  | succ links ih => exact followWith_snoc proper unlinked (fun _ _ more => ih more) leads directory

theorem follow_of_snoc {through : Bool} {last : String}
    (found : d.follow through links here (names ++ [last]) = .ok place) :
    ∃ above, d.follow true links here names = .ok above ∧ d.get? above = some .dir := by
  induction links generalizing here names with
  | zero => exact followWith_of_snoc (fun _ _ more => by cases more) found
  | succ links ih => exact followWith_of_snoc (fun _ _ more => ih more) found

theorem follow_present (leads : d.follow true links here names = .ok place)
    (directory : d.get? place = some .dir) :
    ∃ p e, d.follow false links here names = .ok p ∧ d.get? p = some e := by
  induction links generalizing here names with
  | zero => exact followWith_present (fun _ _ more => by cases more) leads directory
  | succ links ih => exact followWith_present (fun _ _ more => ih more) leads directory

end

def base (d : Disk σ) (p : Path) : Place := if Path.isAbsolute p.text then [] else d.here

/-- Whether a path leads to a directory. The empty path leads to where paths start. -/
def Leads (d : Disk σ) (p : Path) (place : Place) : Prop :=
  d.follow true maxLinks (d.base p) p.names = .ok place ∧ d.get? place = some .dir

theorem leads_iff {d : Disk σ} {p : Path} {place : Place} :
    (d.follow true maxLinks (d.base p) p.names).toOption = some place ∧ (d.get? place matches some .dir) ↔
      d.Leads p place := by
  unfold Leads
  constructor
  · rintro ⟨led, directory⟩
    constructor
    · cases found : d.follow true maxLinks (d.base p) p.names with
      | error f => simp [found, Except.toOption] at led
      | ok q => simpa [found, Except.toOption] using led
    · split at directory
      · assumption
      · cases directory
  · rintro ⟨led, directory⟩
    simp [led, directory, Except.toOption]

instance (d : Disk σ) (p : Path) (place : Place) : Decidable (d.Leads p place) :=
  decidable_of_iff _ leads_iff

theorem Leads.frame {d d' : Disk σ} {p : Path} {place : Place} (leads : d.Leads p place)
    (start : d'.here = d.here) (keeps : ∀ p, ¬Dead (d.get? p) → d'.get? p = d.get? p) :
    d'.Leads p place := by
  constructor
  · rw [base, start]
    exact follow_frame keeps leads.1 leads.2
  · rw [keeps place (leads.2 ▸ id), leads.2]

theorem locate_eq_follow {d : Disk σ} {p : Path} (proper : ¬(p.text.isEmpty ∧ p.below.isEmpty))
    (through : Bool) : d.locate through p = d.follow through maxLinks (d.base p) p.names :=
  if_neg proper

theorem Leads.locate_join {d : Disk σ} {p : Path} {place : Place} (leads : d.Leads p place)
    {name : String} (proper : name ≠ "." ∧ name ≠ "..")
    (unlinked : ∀ target, d.get? (place ++ [name]) ≠ some (.link target)) (through : Bool) :
    d.locate through (p.join name) = .ok (place ++ [name]) := by
  have names : (p.join name).names = p.names ++ [name] := by simp [Path.join, Path.names]
  rw [locate_eq_follow (by simp [Path.join]), names]
  exact follow_snoc proper unlinked leads.1 leads.2

theorem leads_of_locate_join {d : Disk σ} {p : Path} {q : Place} {name : String} {through : Bool}
    (found : d.locate through (p.join name) = .ok q) : ∃ place, d.Leads p place := by
  have names : (p.join name).names = p.names ++ [name] := by simp [Path.join, Path.names]
  rw [locate_eq_follow (by simp [Path.join]), names] at found
  exact follow_of_snoc found

theorem leads_of_read {d : Disk σ} {p : Path} {name : String} {b : Bytes}
    (found : (d.read (p.join name)).toOption = some b) : ∃ place, d.Leads p place := by
  cases located : d.locate true (p.join name) with
  | error f =>
    simp only [read, open?, located] at found
    cases found
  | ok q => exact leads_of_locate_join located

theorem Leads.unique {d : Disk σ} {p : Path} {q q' : Place} (leads : d.Leads p q)
    (leads' : d.Leads p q') : q = q' := Except.ok.inj (leads.1.symm.trans leads'.1)

theorem Leads.makeDirectories {d : Disk σ} {p : Path} {place : Place} (leads : d.Leads p place) :
    d.makeDirectories p = .ok d := by
  obtain ⟨q, e, found, present⟩ := follow_present leads.1 leads.2
  unfold Disk.makeDirectories
  split
  · rfl
  · rename_i proper
    have made : d.makeDirectory p = .error .present := by
      simp [makeDirectory, locate_eq_follow proper, found, present]
    have directory : d.isDirectory p = true := by
      simp [isDirectory, open?, locate_eq_follow proper, leads.1, leads.2]
    simp [ensureDirectory, made, directory]

end RomLedger.Disk
