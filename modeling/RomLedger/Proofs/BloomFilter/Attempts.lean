import RomLedger.Proofs.BloomFilter.Stored

/-!
Filters stored one after another, each time up to wherever the attempt stops. What one attempt leaves in the
current file is what the next one makes the backup: after a torn write the backup is the only copy, and the
next rename puts the torn file over it. The filter survives any other order of stops, and a completed attempt
repairs everything.
-/
namespace RomLedger.BloomFilter

open Disk

inductive Halt where
  | never
  | beforeRename
  | beforeCreate
  | midway (count : Nat)
  deriving DecidableEq, Repr

def Halt.outcomes (renames : Bool) : Halt → List Outcome
  | .never => []
  | .beforeRename => [.failed .unchanged]
  | .beforeCreate => (if renames then [.done] else []) ++ [.failed .unchanged]
  | .midway n => (if renames then [.done] else []) ++ [.failed (.beginning n)]

def Halt.Moves (h : Halt) : Prop := h = .beforeCreate ∨ ∃ n, h = .midway n

abbrev Attempt := BloomFilter × Halt

/-- A stop inside the write leaves less than the whole. -/
def Attempt.Proper (a : Attempt) : Prop := a.1.Sound ∧ ∀ n, a.2 = .midway n → n < a.1.encode.length

variable {σ : Type} {d : Disk σ} {root : Path} {place : Place} {c : Contents} {f : BloomFilter}
  {a : Attempt} {as : List Attempt}

def attempt (root : Path) (d : Disk σ) (a : Attempt) : Disk σ :=
  (store { d with ahead := a.2.outcomes (d.fileExists (root.join fileName)) } root a.1).2

def attempts (root : Path) (d : Disk σ) (as : List Attempt) : Disk σ := as.foldl (attempt root) d

/-- The filter of the last attempt that was completed, or the one from before. -/
def lastStored (f : BloomFilter) (as : List Attempt) : BloomFilter :=
  as.foldl (fun f a => if a.2 = .never then a.1 else f) f

def Contents.advance (c : Contents) (a : Attempt) : Contents :=
  match a.2 with
  | .never => ⟨some a.1.encode, c.current.or c.backup⟩
  | .beforeRename => c
  | .beforeCreate => ⟨none, c.current.or c.backup⟩
  | .midway n => ⟨some (a.1.encode.take n), c.current.or c.backup⟩

def Contents.write (c : Contents) (b : Bytes) : Outcome → Contents
  | .done => ⟨some b, c.backup⟩
  | .failed .unchanged => c
  | .failed .nothing => ⟨none, c.backup⟩
  | .failed (.beginning n) => ⟨some (b.take n), c.backup⟩

def Contents.rotate (c : Contents) : Contents := ⟨none, c.current⟩

theorem contents_set (d : Disk σ) (place : Place) (b : Bytes) :
    contents (d.set (place ++ [fileName]) (.file b)) place = ⟨some b, (contents d place).backup⟩ := by
  simp [contents, get?_set, Ne.symm names_apart, bytes?]

theorem contents_clear (d : Disk σ) (place : Place) :
    contents (d.clear (place ++ [fileName])) place = ⟨none, (contents d place).backup⟩ := by
  simp only [contents, get?_clear d (List.concat_ne_nil _ _), List.append_cancel_left_eq,
    List.cons.injEq, Ne.symm names_apart, and_true, ↓reduceIte]
  rfl

theorem contents_move (housed : Housed d root place) :
    contents (d.move (place ++ [fileName]) (place ++ [backupName])) place =
      (contents d place).rotate := by
  have apart : place ++ [fileName] ≠ place ++ [backupName] := by simp [names_apart]
  simp [contents, Contents.rotate, get?_move housed.current.bare, apart, bytes?]

theorem contents_outcome (d : Disk σ) (place : Place) : contents d.outcome.2 place = contents d place := by
  unfold outcome
  split <;> rfl

theorem contents_write (housed : Housed d root place) (b : Bytes) :
    contents (d.write (root.join fileName) b).2 place = (contents d place).write b d.outcome.1 := by
  have same := contents_outcome d place
  rw [write_plain housed.leads housed.current.dead proper_fileName]
  rcases step : d.outcome with ⟨_ | _ | _ | n, d'⟩ <;> rw [step] at same
  · exact (contents_set ..).trans (by rw [same, Contents.write])
  · exact same
  · exact (contents_clear ..).trans (by rw [same, Contents.write])
  · exact (contents_set ..).trans (by rw [same, Contents.write])

theorem Housed.ahead (housed : Housed d root place) (ahead : List Outcome) :
    Housed { d with ahead := ahead } root place :=
  housed.differs (differs_ahead d ahead _ housed.plain)

theorem Housed.outcome (housed : Housed d root place) : Housed d.outcome.2 root place := by
  unfold Disk.outcome
  split
  · exact housed
  · exact housed.ahead _

theorem contents_store (housed : Housed d root place) (f : BloomFilter) :
    contents (store d root f).2 place =
      if (contents d place).current.isSome then
        match d.outcome with
        | (.done, d') => (contents d place).rotate.write f.encode d'.outcome.1
        | (.failed _, _) => contents d place
      else (contents d place).write f.encode d.outcome.1 := by
  have found := fileExists_current housed
  unfold store
  dsimp only
  rw [found]
  split
  · rename_i present
    have there : (d.get? (place ++ [fileName])).isSome := by rwa [← isSome_bytes? housed.current.dead]
    have same := contents_outcome d place
    have kept := housed.outcome
    rw [rename_plain housed.leads housed.current.dead housed.backup.dead proper_fileName
      proper_backupName names_apart there]
    rcases step : d.outcome with ⟨_ | r, d'⟩ <;> rw [step] at same kept
    · have moved := differs_move kept.leads.2 kept.current kept.backup names_apart
      have later : (d'.move (place ++ [fileName]) (place ++ [backupName])).outcome.1 = d'.outcome.1 := by
        unfold Disk.outcome
        rcases ahead : d'.ahead with _ | ⟨o, rest⟩ <;> simp [move, ahead]
      dsimp only at same ⊢
      rw [contents_write (kept.differs moved), contents_move kept, same, later]
    · exact same
  · exact contents_write housed f.encode

theorem contents_attempt (housed : Housed d root place) (a : Attempt) :
    contents (attempt root d a) place = (contents d place).advance a := by
  have same : ∀ ahead, contents { d with ahead := ahead } place = contents d place := fun _ => rfl
  rw [attempt, contents_store (housed.ahead _), fileExists_current housed]
  simp only [same]
  obtain ⟨g, h⟩ := a
  rcases contents d place with ⟨_ | b, backup⟩ <;> cases h <;> rfl

theorem housed_attempt (housed : Housed d root place) (a : Attempt) :
    Housed (attempt root d a) root place :=
  (housed.ahead _).differs (differs_store (housed.ahead _) a.1).1

theorem contents_attempts (housed : Housed d root place) (as : List Attempt) :
    Housed (attempts root d as) root place ∧
      contents (attempts root d as) place = as.foldl Contents.advance (contents d place) := by
  induction as generalizing d with
  | nil => exact ⟨housed, rfl⟩
  | cons a rest ih =>
    obtain ⟨kept, later⟩ := ih (housed_attempt housed a)
    exact ⟨kept, later.trans (by rw [contents_attempt housed, List.foldl_cons])⟩

inductive Phase where
  | safe
  | torn
  | lost
  deriving DecidableEq

def Phase.next : Phase → Halt → Phase
  | _, .never => .safe
  | p, .beforeRename => p
  | .safe, .beforeCreate => .safe
  | .safe, .midway _ => .torn
  | _, _ => .lost

def phase (p : Phase) (as : List Attempt) : Phase := as.foldl (fun p a => p.next a.2) p

def Contents.Shows (c : Contents) (f : BloomFilter) : Phase → Prop
  | .safe => c.current = some f.encode ∨ c.current = none ∧ c.backup = some f.encode
  | .torn => (∃ b, c.current = some b ∧ parse? (some b) = none) ∧ c.backup = some f.encode
  | .lost => parse? c.current = none ∧ parse? c.backup = none

theorem Contents.Shows.filter? {p : Phase} (shows : c.Shows f p) (sound : f.Sound) :
    c.filter? = if p = .lost then none else some f := by
  unfold Contents.filter?
  cases p with
  | safe =>
    rcases shows with current | ⟨current, backup⟩
    · rw [current, parse?_encode sound]
      rfl
    · rw [current, backup, parse?_encode sound]
      rfl
  | torn =>
    obtain ⟨⟨b, current, refused⟩, backup⟩ := shows
    rw [current, refused, backup, parse?_encode sound]
    rfl
  | lost =>
    rw [shows.1, shows.2]
    rfl

theorem Contents.Shows.rotated {p : Phase} (shows : c.Shows f p) :
    if p = .safe then c.current.or c.backup = some f.encode
    else parse? (c.current.or c.backup) = none := by
  cases p with
  | safe =>
    rcases shows with current | ⟨current, backup⟩
    · simp [current]
    · simp [current, backup]
  | torn =>
    obtain ⟨⟨b, current, refused⟩, -⟩ := shows
    simp [current, refused]
  | lost =>
    obtain ⟨current, backup⟩ := shows
    cases first : c.current with
    | none => simpa using backup
    | some b => simpa [first] using current

theorem shows_advance {p : Phase} (shows : c.Shows f p) (proper : a.Proper) :
    (c.advance a).Shows (if a.2 = .never then a.1 else f) (p.next a.2) := by
  obtain ⟨g, h⟩ := a
  obtain ⟨sound, short⟩ := proper
  have rotated := shows.rotated
  cases h with
  | never => exact .inl rfl
  | beforeRename => exact shows
  | beforeCreate =>
    cases p with
    | safe => exact .inr ⟨rfl, rotated⟩
    | torn | lost => exact ⟨rfl, rotated⟩
  | midway n =>
    have refused := parse?_take sound (short n rfl)
    cases p with
    | safe => exact ⟨⟨_, rfl, refused⟩, rotated⟩
    | torn | lost => exact ⟨refused, rotated⟩

theorem shows_attempts {p : Phase} (shows : c.Shows f p) (proper : ∀ a ∈ as, a.Proper) :
    (as.foldl Contents.advance c).Shows (lastStored f as) (phase p as) := by
  induction as generalizing c f p with
  | nil => exact shows
  | cons a rest ih =>
    have first := shows_advance shows (proper a List.mem_cons_self)
    exact ih first fun b member => proper b (List.mem_cons_of_mem a member)

theorem sound_lastStored (sound : f.Sound) (proper : ∀ a ∈ as, a.Proper) : (lastStored f as).Sound := by
  induction as generalizing f with
  | nil => exact sound
  | cons a rest ih =>
    have next : (if a.2 = .never then a.1 else f).Sound := by
      split
      · exact (proper a List.mem_cons_self).1
      · exact sound
    exact ih next fun b member => proper b (List.mem_cons_of_mem a member)

def Calm (as : List Attempt) : Prop := ∀ a ∈ as, a.2 ≠ .never

def Passes (as : List Attempt) : Prop := ∃ a ∈ as, a.2.Moves

/-- Since the last completed attempt one was torn, and a later one got past its rename. -/
def Spoiled (as : List Attempt) : Prop :=
  ∃ before a n after, as = before ++ a :: after ∧ a.2 = .midway n ∧ Calm after ∧ Passes after

theorem calm_cons : Calm (a :: as) ↔ a.2 ≠ .never ∧ Calm as := List.forall_mem_cons

theorem passes_cons : Passes (a :: as) ↔ a.2.Moves ∨ Passes as := by
  simp only [Passes, List.mem_cons, or_and_right, exists_or, exists_eq_left]

theorem spoiled_cons : Spoiled (a :: as) ↔ (∃ n, a.2 = .midway n) ∧ Calm as ∧ Passes as ∨ Spoiled as := by
  constructor
  · rintro ⟨_ | ⟨b, before⟩, torn, n, after, split, halted, calm, passes⟩
    · obtain ⟨rfl, rfl⟩ := List.cons.inj split
      exact .inl ⟨⟨n, halted⟩, calm, passes⟩
    · obtain ⟨rfl, rfl⟩ := List.cons.inj split
      exact .inr ⟨before, torn, n, after, rfl, halted, calm, passes⟩
  · rintro (⟨⟨n, halted⟩, calm, passes⟩ | ⟨before, torn, n, after, rfl, halted, calm, passes⟩)
    · exact ⟨[], a, n, as, rfl, halted, calm, passes⟩
    · exact ⟨a :: before, torn, n, after, rfl, halted, calm, passes⟩

theorem phase_eq_lost_iff (p : Phase) (as : List Attempt) :
    phase p as = .lost ↔
      p = .lost ∧ Calm as ∨ p = .torn ∧ Calm as ∧ Passes as ∨ Spoiled as := by
  induction as generalizing p with
  | nil => simp [phase, Calm, Passes, Spoiled]
  | cons a rest ih =>
    have later : phase p (a :: rest) = phase (p.next a.2) rest := rfl
    have absorbed : Calm rest ∨ Calm rest ∧ Passes rest ∨ Spoiled rest ↔ Calm rest ∨ Spoiled rest := by
      rw [← or_assoc, or_iff_left_of_imp And.left]
    rw [later, ih, calm_cons, passes_cons, spoiled_cons]
    obtain ⟨g, h⟩ := a
    cases h <;> cases p <;> simp [Phase.next, Halt.Moves, absorbed]

theorem spoiled_iff (as : List Attempt) : phase .safe as = .lost ↔ Spoiled as := by
  rw [phase_eq_lost_iff]
  simp

instance : DecidablePred Spoiled := fun as => decidable_of_iff _ (spoiled_iff as)

/-- Whatever is tried after a filter was stored, the filter of the last completed attempt is read back,
unless the attempts since then have spoiled both files. -/
theorem stored?_attempts (housed : Housed d root place) (sound : f.Sound)
    (written : (store d root f).1 = .ok ()) (proper : ∀ a ∈ as, a.Proper) :
    (¬Spoiled as → stored? (attempts root (store d root f).2 as) root = some (lastStored f as)) ∧
      (Spoiled as → stored? (attempts root (store d root f).2 as) root = none) := by
  obtain ⟨differs, done⟩ := differs_store housed f
  obtain ⟨kept, later⟩ := contents_attempts (housed.differs differs) as
  have start : (contents (store d root f).2 place).Shows f .safe := .inl (done written)
  have shows := shows_attempts start proper
  rw [stored?_eq kept.leads kept.dead, later, shows.filter? (sound_lastStored sound proper), ← spoiled_iff]
  exact ⟨fun alive => if_neg alive, fun gone => if_pos gone⟩

def emptyRoot : Disk Unit := ⟨[(["r"], .dir)], [], []⟩

theorem housed_emptyRoot : Housed emptyRoot (.ofString "r") ["r"] := ⟨⟨rfl, rfl⟩, by decide⟩

theorem proper_ofSizes (bits : UInt64) (hashes : UInt32) :
    Attempt.Proper (ofSizes bits hashes, .midway 1) := by
  refine ⟨sound_ofSizes bits hashes, fun n halted => ?_⟩
  cases halted
  rw [length_encode]
  exact Nat.lt_add_left _ (by decide)

theorem stored?_three_attempts :
    stored? (attempts (.ofString "r") (store emptyRoot (.ofString "r") (ofSizes 64 1)).2
      [(ofSizes 64 2, .midway 1), (ofSizes 64 3, .never), (ofSizes 64 4, .midway 1)]) (.ofString "r")
      = some (ofSizes 64 3) := by
  refine (stored?_attempts housed_emptyRoot (sound_ofSizes 64 1) rfl ?_).1 (by decide)
  simp only [List.forall_mem_cons, List.not_mem_nil, false_imp_iff, implies_true, and_true]
  exact ⟨proper_ofSizes 64 2, ⟨sound_ofSizes 64 3, nofun⟩, proper_ofSizes 64 4⟩

/-- Two torn attempts in a row leave nothing of a filter that was stored. -/
theorem lost_after_torn_twice :
    (store emptyRoot (.ofString "r") (ofSizes 64 1)).1 = .ok () ∧
      stored? (attempts (.ofString "r") (store emptyRoot (.ofString "r") (ofSizes 64 1)).2
        [(ofSizes 64 2, .midway 1), (ofSizes 64 3, .midway 1)]) (.ofString "r") = none :=
  ⟨rfl, by decide +kernel⟩

end RomLedger.BloomFilter
