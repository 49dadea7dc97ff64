import RomLedger.Proofs.Disk.Growth
import RomLedger.Proofs.Disk.Home

/- What was written is read. A path may lead to a file over links, into other directories and out of them
   again; wherever it leads, it leads there still when the file has been written, and reading it gives the
   bytes. -/
namespace RomLedger.Disk

variable {σ : Type} {d d' : Disk σ} {jump jump' : Place → List String → Except Fault Place} {here place : Place}
  {names : List String} {links : Nat}

/-- What a look-up comes to that follows all links: by the next name, over a link, into what is there, or at the last
name to what is missing. -/
theorem followWith_step {name : String} {rest : List String}
    (leads : d.followWith true jump here (name :: rest) = .ok place) :
    d.get? here = some .dir ∧
      (name = "." ∧ d.followWith true jump here rest = .ok place ∨
        name = ".." ∧ d.followWith true jump here.dropLast rest = .ok place ∨
        name ≠ "." ∧ name ≠ ".." ∧
          ((∃ target, d.get? (here ++ [name]) = some (.link target) ∧
              jump (if Path.isAbsolute target then [] else here) (Path.namesOf target ++ rest) = .ok place) ∨
            (∃ e, d.get? (here ++ [name]) = some e ∧ (∀ target, e ≠ .link target) ∧
              d.followWith true jump (here ++ [name]) rest = .ok place) ∨
            d.get? (here ++ [name]) = none ∧ rest = [] ∧ place = here ++ [name])) := by
  simp only [followWith] at leads
  split at leads
  · rename_i directory
    refine ⟨directory, ?_⟩
    split at leads
    · rename_i dot
      exact .inl ⟨dot, leads⟩
    rename_i proper
    split at leads
    · rename_i dots
      exact .inr (.inl ⟨dots, leads⟩)
    rename_i proper'
    refine .inr (.inr ⟨proper, proper', ?_⟩)
    split at leads
    · rename_i target found
      simp only [Bool.not_true, Bool.and_false, Bool.false_eq_true, ↓reduceIte] at leads
      exact .inl ⟨target, found, leads⟩
    · rename_i e other found
      exact .inr (.inl ⟨e, found, other, leads⟩)
    · rename_i missing
      split at leads
      · rename_i last
        exact .inr (.inr ⟨missing, List.isEmpty_iff.mp last, (Except.ok.inj leads).symm⟩)
      · cases leads
  · cases leads

theorem followWith_ne_link {target : String} (link : d.get? place = some (.link target))
    (jumps : ∀ here names, ¬place <+: here → jump here names ≠ .ok place) (outside : ¬place <+: here) :
    d.followWith true jump here names ≠ .ok place := by
  have inner : place ≠ [] := by
    rintro rfl
    cases link
  induction names generalizing here with
  | nil =>
    intro leads
    cases leads
    exact outside List.prefix_rfl
  | cons name rest ih =>
    intro leads
    obtain ⟨-, ⟨-, more⟩ | ⟨-, more⟩ | ⟨-, -, ⟨t, -, more⟩ | ⟨e, found, unlinked, more⟩ | ⟨missing, -, same⟩⟩⟩ :=
      followWith_step leads
    · exact ih outside more
    · exact ih (fun within_ => outside (within_.trans (List.dropLast_prefix here))) more
    · refine jumps _ _ ?_ more
      split
      · exact fun within_ => inner (List.prefix_nil.mp within_)
      · exact outside
    · refine ih (fun within_ => ?_) more
      rcases List.prefix_concat_iff.mp within_ with same | within_
      · rw [← same, link] at found
        exact unlinked target (Option.some.inj found).symm
      · exact outside within_
    · rw [← same, link] at missing
      cases missing

theorem follow_ne_link {target : String} (link : d.get? place = some (.link target)) (outside : ¬place <+: here) :
    d.follow true links here names ≠ .ok place := by
  induction links generalizing here names with
  | zero => exact followWith_ne_link link (fun _ _ _ => by simp) outside
  | succ links ih => exact followWith_ne_link link (fun _ _ outside => ih outside) outside

theorem followWith_written {b : Bytes} (file : d.get? place ≠ some .dir) (now : d'.get? place = some (.file b))
    (same : ∀ q, q ≠ place → d'.get? q = d.get? q)
    (apart : ∀ target, d.get? place = some (.link target) → ∀ here names, ¬place <+: here →
      jump here names ≠ .ok place)
    (jumps : ∀ here names, jump here names = .ok place → jump' here names = .ok place)
    (leads : d.followWith true jump here names = .ok place) :
    d'.followWith true jump' here names = .ok place := by
  induction names generalizing here with
  | nil => exact leads
  | cons name rest ih =>
    obtain ⟨directory, steps⟩ := followWith_step leads
    have directory' : d'.get? here = some .dir := by
      rw [same here (fun same => file (same ▸ directory)), directory]
    simp only [followWith, directory']
    rcases steps with ⟨dot, more⟩ | ⟨dots, more⟩ | ⟨proper, proper', steps⟩
    · rw [if_pos dot]
      exact ih more
    · have proper : name ≠ "." := by simp [dots]
      rw [if_neg proper, if_pos dots]
      exact ih more
    rw [if_neg proper, if_neg proper']
    by_cases end_ : here ++ [name] = place
    · -- the look-up is at its end, since nothing is below a file
      simp only [end_, now]
      rcases steps with ⟨target, link, more⟩ | ⟨e, found, unlinked, more⟩ | ⟨-, rfl, -⟩
      · rw [end_] at link
        refine absurd more (apart target link _ _ ?_)
        have inner : place ≠ [] := by
          rintro rfl
          cases link
        split
        · exact fun within_ => inner (List.prefix_nil.mp within_)
        · rw [← end_]
          exact fun within_ => absurd within_.length_le (by simp)
      · cases rest with
        | nil => rfl
        | cons next more' =>
          have directory := (followWith_step more).1
          rw [end_] at directory
          exact absurd directory file
      · rfl
    · rw [same _ end_]
      rcases steps with ⟨target, link, more⟩ | ⟨e, found, unlinked, more⟩ | ⟨missing, rfl, last⟩
      · simp only [link, Bool.not_true, Bool.and_false, Bool.false_eq_true, ↓reduceIte]
        exact jumps _ _ more
      · rw [found]
        cases e with
        | link target => exact absurd rfl (unlinked target)
        | dir | file | store => exact ih more
      · exact absurd last.symm end_

theorem follow_written {b : Bytes} (file : d.get? place ≠ some .dir) (now : d'.get? place = some (.file b))
    (same : ∀ q, q ≠ place → d'.get? q = d.get? q) (leads : d.follow true links here names = .ok place) :
    d'.follow true links here names = .ok place := by
  induction links generalizing here names with
  | zero =>
    refine followWith_written file now same ?_ ?_ leads
    · exact fun _ _ _ _ _ => by simp
    · exact fun _ _ more => by simp at more
  | succ links ih =>
    exact followWith_written file now same (fun _ link _ _ outside => follow_ne_link link outside)
      (fun _ _ more => ih more) leads

theorem locate_written {p : Path} {b : Bytes} (file : d.get? place ≠ some .dir)
    (now : d'.get? place = some (.file b)) (same : ∀ q, q ≠ place → d'.get? q = d.get? q) (start : d'.here = d.here)
    (located : d.locate true p = .ok place) : d'.locate true p = .ok place := by
  unfold locate at located ⊢
  split at located
  · cases located
  · rename_i proper
    rw [if_neg proper, start]
    exact follow_written file now same located

theorem write_ok_iff {p : Path} {content : Bytes} :
    d.write p content = (.ok (), d') ↔
      ∃ place, d.locate true p = .ok place ∧ d.get? place ≠ some .dir ∧ d.outcome.1 = .done ∧
        d' = d.outcome.2.set place (.file content) := by
  unfold write
  constructor
  · intro written
    split at written
    · cases written
    rename_i place located
    split at written
    · cases written
    rename_i file
    split at written <;> rename_i next <;> cases written
    rw [next]
    exact ⟨place, located, file, rfl, rfl⟩
  · rintro ⟨place, located, file, next, rfl⟩
    rw [located]
    dsimp only
    split
    · rename_i directory
      exact absurd directory file
    · rcases outcome : d.outcome with ⟨o, d''⟩
      obtain rfl : o = .done := by rwa [outcome] at next
      rfl

theorem fileExists_of_read {p : Path} {content : Bytes} (found : d.read p = .ok content) :
    d.fileExists p = true := by
  unfold read at found
  unfold fileExists
  cases opened : d.open? p with
  | error f =>
    rw [opened] at found
    cases found
  | ok e => rfl

theorem read_of_write {p : Path} {content : Bytes} (written : d.write p content = (.ok (), d')) :
    d'.read p = .ok content := by
  obtain ⟨place, located, file, -, rfl⟩ := write_ok_iff.mp written
  have inner : place ≠ [] := by
    rintro rfl
    exact file rfl
  have start : d.outcome.2.here = d.here := (grows_outcome d).start
  have now : (d.outcome.2.set place (.file content)).get? place = some (.file content) := by
    rw [get?_set _ inner, if_pos rfl]
  have others : ∀ q, q ≠ place → (d.outcome.2.set place (.file content)).get? q = d.get? q := by
    intro q apart
    rw [get?_set _ inner, if_neg apart, get?_outcome]
  have found := locate_written file now others start located
  simp only [read, open?, found, now]

end RomLedger.Disk
