import RomLedger.Proofs.Disk.Place

/- Plain files in a directory: places where nothing lies or a file does, and nothing below. -/
namespace RomLedger.Disk

variable {σ : Type}

/-- A place for a file: there is no directory and no link, and nothing below. -/
structure Plain (d : Disk σ) (p : Place) : Prop where
  dead : Dead (d.get? p)
  bare : d.Bare p

instance (d : Disk σ) (p : Place) : Decidable (d.Plain p) :=
  decidable_of_iff (Dead (d.get? p) ∧ d.Bare p) ⟨fun both => ⟨both.1, both.2⟩, fun plain => ⟨plain.1, plain.2⟩⟩

def bytes? : Option (Entry σ) → Option Bytes
  | some (.file b) => some b
  | some (.store _) => some storeOpening
  | _ => none

/-- Two disks that differ only in what files lie at some places. -/
structure Differs (d d' : Disk σ) (places : List Place) : Prop where
  start : d'.here = d.here
  same : ∀ p, p ∉ places → d'.get? p = d.get? p
  plain : ∀ p ∈ places, d.Plain p
  keeps : ∀ p, d.Plain p → d'.Plain p

theorem Differs.refl (d : Disk σ) (places : List Place) (plain : ∀ p ∈ places, d.Plain p) :
    d.Differs d places := ⟨rfl, fun _ _ => rfl, plain, fun _ => id⟩

theorem Differs.trans {d₁ d₂ d₃ : Disk σ} {places : List Place} (first : d₁.Differs d₂ places)
    (second : d₂.Differs d₃ places) : d₁.Differs d₃ places where
  start := second.start.trans first.start
  same p outside := (second.same p outside).trans (first.same p outside)
  plain := first.plain
  keeps p plain := second.keeps p (first.keeps p plain)

theorem Differs.widen {d d' : Disk σ} {places more : List Place} (differs : d.Differs d' places)
    (inside : ∀ p ∈ places, p ∈ more) (plain : ∀ p ∈ more, d.Plain p) : d.Differs d' more where
  start := differs.start
  same p outside := differs.same p fun member => outside (inside p member)
  plain := plain
  keeps := differs.keeps

theorem Differs.leads {d d' : Disk σ} {places : List Place} (differs : d.Differs d' places) {p : Path}
    {place : Place} (leads : d.Leads p place) : d'.Leads p place := by
  refine leads.frame differs.start fun q live => differs.same q fun inside => ?_
  exact live (differs.plain q inside).dead

theorem differs_ahead (d : Disk σ) (ahead : List Outcome) (places : List Place)
    (plain : ∀ p ∈ places, d.Plain p) : d.Differs { d with ahead := ahead } places :=
  ⟨rfl, fun _ _ => rfl, plain, fun _ plain => ⟨plain.dead, plain.bare⟩⟩

theorem not_prefix_of_plain {d : Disk σ} {p place : Place} (inner : p ≠ []) (plain : d.Plain p)
    (directory : d.get? place = some .dir) : ¬p <+: place := by
  intro inside
  by_cases top : place = []
  · subst top
    exact inner (List.prefix_nil.mp inside)
  · have dead := plain.dead
    simp only [get?, top, ↓reduceIte] at directory
    obtain ⟨before, after, entries, _⟩ := List.lookup_eq_some_iff.mp directory
    have same : place = p := plain.bare (place, .dir) (by simp [entries]) inside
    rw [← same, get?, if_neg top, directory] at dead
    exact dead

theorem bare_of_new {d : Disk σ} {p place : Place} {name : String} (inner : p ≠ []) (plain : d.Plain p)
    (directory : d.get? place = some .dir) (inside : p <+: place ++ [name]) : place ++ [name] = p := by
  rcases List.prefix_concat_iff.mp inside with same | within
  · exact same.symm
  · exact absurd within (not_prefix_of_plain inner plain directory)

theorem plain_inner {d : Disk σ} {p : Place} (plain : d.Plain p) : p ≠ [] := by
  rintro rfl
  exact plain.dead

section

variable {d : Disk σ} {place : Place} {name other : String}

theorem differs_set {e : Entry σ} (directory : d.get? place = some .dir)
    (plain : d.Plain (place ++ [name])) (dead : Dead (some e)) :
    d.Differs (d.set (place ++ [name]) e) [place ++ [name]] where
  start := rfl
  same p outside := by
    rw [get?_set d (by simp), if_neg (by simpa using outside)]
  plain := by simpa using plain
  keeps p kept := by
    have inner := plain_inner kept
    refine ⟨?_, fun f member inside => ?_⟩
    · rw [get?_set d (by simp)]
      split
      · exact dead
      · exact kept.dead
    · rcases List.mem_cons.mp member with rfl | old
      · exact bare_of_new inner kept directory inside
      · exact kept.bare f (List.mem_filter.mp old).1 inside

theorem differs_clear (plain : d.Plain (place ++ [name])) :
    d.Differs (d.clear (place ++ [name])) [place ++ [name]] where
  start := rfl
  same p outside := by
    rw [get?_clear d (by simp), if_neg (by simpa using outside)]
  plain := by simpa using plain
  keeps p kept := by
    refine ⟨?_, fun f member inside => kept.bare f (List.mem_filter.mp member).1 inside⟩
    rw [get?_clear d (by simp)]
    split
    · trivial
    · exact kept.dead

theorem differs_move (directory : d.get? place = some .dir) (plain : d.Plain (place ++ [name]))
    (plain' : d.Plain (place ++ [other])) (apart : name ≠ other) :
    d.Differs (d.move (place ++ [name]) (place ++ [other])) [place ++ [name], place ++ [other]] where
  start := rfl
  same p outside := by
    simp only [List.mem_cons, List.not_mem_nil, or_false, not_or] at outside
    rw [get?_move plain.bare (by simp) (by simp) (by simpa using apart), if_neg outside.2,
      if_neg outside.1]
  plain p member := by
    rcases List.mem_cons.mp member with rfl | member
    · exact plain
    · exact List.mem_singleton.mp member ▸ plain'
  keeps p kept := by
    have inner := plain_inner kept
    refine ⟨?_, fun f member inside => ?_⟩
    · rw [get?_move plain.bare (by simp) (by simp) (by simpa using apart)]
      split
      · exact plain.dead
      · split
        · trivial
        · exact kept.dead
    · simp only [move, List.mem_append, List.mem_map, List.mem_filter] at member
      rcases member with ⟨g, ⟨old, within⟩, rfl⟩ | ⟨old, _⟩
      · have same : g.1 = place ++ [name] := plain.bare g old (List.isPrefixOf_iff_prefix.mp within)
        simp only [same, List.drop_length, List.append_nil] at inside ⊢
        exact bare_of_new inner kept directory inside
      · exact kept.bare f old inside

end

section

variable {d : Disk σ} {p : Path} {place : Place} {name other : String}

theorem Dead.unlinked {q : Place} (dead : Dead (d.get? q)) (target : String) :
    d.get? q ≠ some (.link target) := by
  intro found
  rw [found] at dead
  exact dead

theorem locate_plain (leads : d.Leads p place) (dead : Dead (d.get? (place ++ [name])))
    (proper : name ≠ "." ∧ name ≠ "..") (through : Bool) :
    d.locate through (p.join name) = .ok (place ++ [name]) :=
  leads.locate_join proper dead.unlinked through

theorem read_plain (leads : d.Leads p place) (dead : Dead (d.get? (place ++ [name])))
    (proper : name ≠ "." ∧ name ≠ "..") :
    (d.read (p.join name)).toOption = bytes? (d.get? (place ++ [name])) := by
  simp only [read, open?, locate_plain leads dead proper]
  cases found : d.get? (place ++ [name]) with
  | none => rfl
  | some e =>
    rw [found] at dead
    cases e with
    | dir => exact dead.elim
    | link target => exact dead.elim
    | file b => rfl
    | store c => rfl

theorem isSome_bytes? {q : Place} (dead : Dead (d.get? q)) :
    (bytes? (d.get? q)).isSome = (d.get? q).isSome := by
  cases found : d.get? q with
  | none => rfl
  | some e =>
    rw [found] at dead
    cases e with
    | dir => exact dead.elim
    | link target => exact dead.elim
    | file b => rfl
    | store c => rfl

theorem fileExists_plain (leads : d.Leads p place) (dead : Dead (d.get? (place ++ [name])))
    (proper : name ≠ "." ∧ name ≠ "..") :
    d.fileExists (p.join name) = (d.get? (place ++ [name])).isSome := by
  simp only [fileExists, open?, locate_plain leads dead proper]
  cases d.get? (place ++ [name]) <;> rfl

theorem write_plain (leads : d.Leads p place) (dead : Dead (d.get? (place ++ [name])))
    (proper : name ≠ "." ∧ name ≠ "..") (content : Bytes) :
    d.write (p.join name) content =
      match d.outcome with
      | (.done, d) => (.ok (), d.set (place ++ [name]) (.file content))
      | (.failed .unchanged, d) => (.error .failed, d)
      | (.failed .nothing, d) => (.error .failed, d.clear (place ++ [name]))
      | (.failed (.beginning n), d) =>
        (.error .failed, d.set (place ++ [name]) (.file (content.take n))) := by
  simp only [write, locate_plain leads dead proper]
  cases found : d.get? (place ++ [name]) with
  | none => rfl
  | some e =>
    rw [found] at dead
    cases e with
    | dir => exact dead.elim
    | link target => exact dead.elim
    | file b => rfl
    | store c => rfl

theorem rename_plain (leads : d.Leads p place) (dead : Dead (d.get? (place ++ [name])))
    (dead' : Dead (d.get? (place ++ [other]))) (proper : name ≠ "." ∧ name ≠ "..")
    (proper' : other ≠ "." ∧ other ≠ "..") (apart : name ≠ other)
    (present : (d.get? (place ++ [name])).isSome) :
    d.rename (p.join name) (p.join other) =
      match d.outcome with
      | (.done, d) => (.ok (), d.move (place ++ [name]) (place ++ [other]))
      | (.failed _, d) => (.error .failed, d) := by
  obtain ⟨e, found⟩ := Option.isSome_iff_exists.mp present
  have unmoved : d.moveFault e (place ++ [other]) = none := by
    rw [found] at dead
    unfold moveFault
    split
    · rfl
    · exact dead.elim
    · exact dead.elim
    · rename_i there
      rw [there] at dead'
      exact dead'.elim
    · rfl
  rcases next : d.outcome with ⟨_ | r, d'⟩ <;>
    simp [rename, locate_plain leads dead proper, locate_plain leads dead' proper', found, unmoved, next, apart]

theorem differs_write (leads : d.Leads p place) (plain : d.Plain (place ++ [name]))
    (proper : name ≠ "." ∧ name ≠ "..") (content : Bytes) :
    d.Differs (d.write (p.join name) content).2 [place ++ [name]] ∧
      ((d.write (p.join name) content).1 = .ok () →
        (d.write (p.join name) content).2.get? (place ++ [name]) = some (.file content)) := by
  have next : d.Differs d.outcome.2 [place ++ [name]] ∧ d.outcome.2.Plain (place ++ [name]) ∧
      d.outcome.2.get? place = some .dir := by
    unfold outcome
    split
    · exact ⟨.refl d _ (by simpa using plain), plain, leads.2⟩
    · exact ⟨differs_ahead d _ _ (by simpa using plain), ⟨plain.dead, plain.bare⟩, leads.2⟩
  obtain ⟨step, plain', directory⟩ := next
  rw [write_plain leads plain.dead proper]
  split
  · rename_i d' outcome
    rw [outcome] at step plain' directory
    exact ⟨step.trans (differs_set directory plain' trivial), fun _ => by simp [get?_set]⟩
  · rename_i d' outcome
    rw [outcome] at step
    exact ⟨step, nofun⟩
  · rename_i d' outcome
    rw [outcome] at step plain'
    exact ⟨step.trans (differs_clear plain'), nofun⟩
  · rename_i n d' outcome
    rw [outcome] at step plain' directory
    exact ⟨step.trans (differs_set directory plain' trivial), nofun⟩

theorem differs_rename (leads : d.Leads p place) (plain : d.Plain (place ++ [name]))
    (plain' : d.Plain (place ++ [other])) (proper : name ≠ "." ∧ name ≠ "..")
    (proper' : other ≠ "." ∧ other ≠ "..") (apart : name ≠ other)
    (present : (d.get? (place ++ [name])).isSome) :
    d.Differs (d.rename (p.join name) (p.join other)).2 [place ++ [name], place ++ [other]] := by
  have both : ∀ q ∈ [place ++ [name], place ++ [other]], d.Plain q := by
    simpa using ⟨plain, plain'⟩
  have next : d.Differs d.outcome.2 [place ++ [name], place ++ [other]] ∧
      d.outcome.2.get? place = some .dir := by
    unfold outcome
    split
    · exact ⟨.refl d _ both, leads.2⟩
    · exact ⟨differs_ahead d _ _ both, leads.2⟩
  obtain ⟨step, directory⟩ := next
  rw [rename_plain leads plain.dead plain'.dead proper proper' apart present]
  split
  · rename_i d' outcome
    rw [outcome] at step directory
    exact step.trans (differs_move directory (step.keeps _ plain) (step.keeps _ plain') apart)
  · rename_i r d' outcome
    rw [outcome] at step
    exact step

/-- What is read at a place after a write to it: `old` is what was read there before. -/
def Outcome.landed (old : Option Bytes) (content : Bytes) : Outcome → Option Bytes
  | .done => some content
  | .failed .unchanged => old
  | .failed .nothing => none
  | .failed (.beginning n) => some (content.take n)

theorem get?_outcome (d : Disk σ) (q : Place) : d.outcome.2.get? q = d.get? q := by
  unfold outcome
  split <;> rfl

theorem ahead_outcome (d : Disk σ) : d.outcome.2.ahead = d.ahead.tail := by
  unfold outcome
  split
  · rename_i none
    rw [none, List.tail_nil]
  · rename_i o rest more
    rw [more, List.tail_cons]

theorem landed_write (leads : d.Leads p place) (dead : Dead (d.get? (place ++ [name])))
    (proper : name ≠ "." ∧ name ≠ "..") (content : Bytes) :
    (d.write (p.join name) content).2.ahead = d.ahead.tail ∧
      bytes? ((d.write (p.join name) content).2.get? (place ++ [name])) =
        Outcome.landed (bytes? (d.get? (place ++ [name]))) content d.outcome.1 := by
  have inner : place ++ [name] ≠ [] := List.concat_ne_nil _ _
  have ahead := ahead_outcome d
  have same := get?_outcome d (place ++ [name])
  rw [write_plain leads dead proper]
  rcases next : d.outcome with ⟨_ | _ | _ | n, d'⟩ <;> rw [next] at ahead same
  · exact ⟨ahead, by simp [get?_set d' inner, bytes?, Outcome.landed]⟩
  · exact ⟨ahead, congrArg bytes? same⟩
  · exact ⟨ahead, by simp [get?_clear d' inner, bytes?, Outcome.landed]⟩
  · exact ⟨ahead, by simp [get?_set d' inner, bytes?, Outcome.landed]⟩

theorem ahead_rename (leads : d.Leads p place) (dead : Dead (d.get? (place ++ [name])))
    (dead' : Dead (d.get? (place ++ [other]))) (proper : name ≠ "." ∧ name ≠ "..")
    (proper' : other ≠ "." ∧ other ≠ "..") (apart : name ≠ other)
    (present : (d.get? (place ++ [name])).isSome) :
    (d.rename (p.join name) (p.join other)).2.ahead = d.ahead.tail := by
  have ahead := ahead_outcome d
  rw [rename_plain leads dead dead' proper proper' apart present]
  rcases next : d.outcome with ⟨_ | r, d'⟩ <;> rw [next] at ahead <;> exact ahead

end

end RomLedger.Disk
